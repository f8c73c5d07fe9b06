/-
Elfconv/VirtualRegs/ReachingValues.lean

The values that the optimised function passes to the semantics functions.

The unoptimised function loads every register from `CPUState` and stores every result there.
The optimised one keeps the values of a block in `cur_r_inst_mp`, takes those of the derived
registers from phi nodes, and loads from `CPUState`, which it never stores to, what it has no
value of.  So it runs as if each block forgot the registers that it does not derive
(`Passed.optimized_eq`); the relay blocks do not show.

`keepsReachingValues_iff` says for which functions this makes no difference on any path, whatever
the semantics functions compute.  A loop without an exit may be entered at several blocks; which
of them the search comes to first depends on the addresses of the bags, and the condition asks
for all of them.
-/
import Elfconv.Lib.Reaching
import Elfconv.VirtualRegs.JoinedFunction
import Elfconv.VirtualRegs.RelayValues
import Elfconv.VirtualRegs.SSAForm

namespace Elfconv

open Component

/-- The registers that the instructions load and store. -/
def instCode : Reaching.Code DecodedInst EcvReg := ⟨DecodedInst.loads, DecodedInst.stores⟩

variable {β : Type} [DecidableEq β]

/-! ### The two functions -/

section Values

variable {V : Type} (sema : DecodedInst → List V → EcvReg → V) (cpu : EcvReg → V)

/-- The registers that the unoptimised function loads on a path, instruction by instruction. -/
def JoinedFunction.operands (f : JoinedFunction β) (path : List β) : List (List V) :=
  Reaching.operands instCode sema (path.flatMap f.insts) cpu

/-- The value of a register in the optimised function; it is loaded when there is none. -/
def cachedValue (cur_r_inst_mp : EcvReg → Option V) (er : EcvReg) : V :=
  (cur_r_inst_mp er).getD (cpu er)

/-- `cur_r_inst_mp` after the loads and the results of an instruction. -/
def DecodedInst.updateCache (inst : DecodedInst) (cur_r_inst_mp : EcvReg → Option V) :
    EcvReg → Option V := fun er =>
  if er ∈ inst.stores then some (sema inst (inst.loads.map (cachedValue cpu cur_r_inst_mp)) er)
  else if er ∈ inst.loads then some (cachedValue cpu cur_r_inst_mp er)
  else cur_r_inst_mp er

/-- `cur_r_inst_mp` after a block. -/
def updateCacheAll (insts : List DecodedInst) (cur_r_inst_mp : EcvReg → Option V) :
    EcvReg → Option V :=
  insts.foldl (fun cur inst => inst.updateCache sema cpu cur) cur_r_inst_mp

/-- The operands of every instruction, from the values of the block. -/
def cachedOperands : List DecodedInst → (EcvReg → Option V) → List (List V)
  | [], _ => []
  | inst :: insts, cur_r_inst_mp =>
      inst.loads.map (cachedValue cpu cur_r_inst_mp) ::
        cachedOperands insts (inst.updateCache sema cpu cur_r_inst_mp)

end Values

/-- A relay block has phi nodes and loads only. -/
def JoinedFunction.bbInsts (f : JoinedFunction β) : BB β → List DecodedInst
  | .orig b => f.insts b
  | .relay _ => []

namespace PhiState

variable {V : Type} (s : PhiState β)

/-- The value of the phi node for a register at the start of a block; undefined for an edge
without an incoming value. -/
def phiValue (undefined : EcvReg → V) (values : BB β → EcvReg → V) (prev : Option (BB β))
    (b : BB β) (er : EcvReg) : Option V :=
  ((s.phis b).find? (·.er = er)).map fun φ =>
    match φ.incoming.find? (some ·.2 = prev) with
    | some i => values i.1.getParent i.1.er
    | none => undefined er

variable (f : JoinedFunction β) (sema : DecodedInst → List V → EcvReg → V) (cpu : EcvReg → V)
  (undefined : EcvReg → V)

/-- The registers that the optimised function loads on a path; `values` are the values that the
instructions of the blocks had the last time. -/
def optimizedOperands : Option (BB β) → (BB β → EcvReg → V) → List (BB β) → List (List V)
  | _, _, [] => []
  | prev, values, b :: path =>
      let cur_r_inst_mp := s.phiValue undefined values prev b
      cachedOperands sema cpu (f.bbInsts b) cur_r_inst_mp ++
        optimizedOperands (some b)
          (Function.update values b
            (cachedValue cpu (updateCacheAll sema cpu (f.bbInsts b) cur_r_inst_mp))) path

end PhiState

/-- **The optimised function passes on the values that reach the reads**: on every path its
operands are those of the unoptimised function, and it has all paths of that. -/
structure KeepsReachingValues (f : JoinedFunction β) (s : PhiState β) : Prop where
  paths : ∀ l, List.IsChain f.Edge (f.entry :: l) → ∃ l' : List (BB β),
    List.IsChain (fun x y => y ∈ s.graph.succs x) (.orig f.entry :: l') ∧ l'.filterMap BB.orig? = l
  operands : ∀ l' : List (BB β),
    List.IsChain (fun x y => y ∈ s.graph.succs x) (.orig f.entry :: l') →
    ∀ (V : Type) (sema : DecodedInst → List V → EcvReg → V) (cpu undefined : EcvReg → V),
      s.optimizedOperands f sema cpu undefined none (fun _ => undefined) (.orig f.entry :: l') =
        f.operands sema cpu (f.entry :: l'.filterMap BB.orig?)

/-! ### The code of a block -/

section Values

variable {V : Type} {sema : DecodedInst → List V → EcvReg → V} {cpu : EcvReg → V}

/-- The values of the optimised function change as registers do. -/
theorem cachedValue_updateCache (inst : DecodedInst) (cur : EcvReg → Option V) :
    cachedValue cpu (inst.updateCache sema cpu cur) =
      Reaching.exec instCode sema inst (cachedValue cpu cur) := by
  funext er
  show Option.getD (if er ∈ inst.stores then _ else if er ∈ inst.loads then _ else _) _ =
    if er ∈ inst.stores then _ else _
  split
  · rfl
  · split <;> rfl

/-- The same over a block. -/
theorem cachedValue_updateCacheAll (insts : List DecodedInst) (cur : EcvReg → Option V) :
    cachedValue cpu (updateCacheAll sema cpu insts cur) =
      Reaching.execAll instCode sema insts (cachedValue cpu cur) := by
  induction insts generalizing cur with
  | nil => rfl
  | cons inst insts ih =>
      show cachedValue cpu (updateCacheAll sema cpu insts _) =
        Reaching.execAll instCode sema insts _
      rw [ih, cachedValue_updateCache]

/-- The cache holds what the registers would hold. -/
theorem cachedOperands_eq (insts : List DecodedInst) (cur : EcvReg → Option V) :
    cachedOperands sema cpu insts cur =
      Reaching.operands instCode sema insts (cachedValue cpu cur) := by
  induction insts generalizing cur with
  | nil => rfl
  | cons inst insts ih =>
      show _ :: cachedOperands sema cpu insts _ = _ :: Reaching.operands instCode sema insts _
      rw [ih, cachedValue_updateCache]
      rfl

end Values

/-! ### The phi nodes of a block -/

namespace PhiState

variable {V : Type} {cfg : LiftedCFG β} {s : PhiState β} {undefined : EcvReg → V}
  {values : BB β → EcvReg → V} {x y : BB β} {er : EcvReg}

theorem phiValue_eq_none (h : ∀ φ ∈ s.phis x, φ.er ≠ er) (prev : Option (BB β)) :
    s.phiValue undefined values prev x er = none := by
  have hnone : (s.phis x).find? (·.er = er) = none := by
    rw [List.find?_eq_none]
    exact fun φ hφ => by rw [decide_eq_true_eq]; exact h φ hφ
  rw [phiValue, hnone]
  rfl

/-- The first element that satisfies a predicate. -/
theorem exists_find? {α : Type} {l : List α} (P : α → Prop) [DecidablePred P]
    (h : ∃ a ∈ l, P a) : ∃ a, l.find? (P ·) = some a ∧ a ∈ l ∧ P a := by
  have hsome : (l.find? (P ·)).isSome = true := by
    rw [List.find?_isSome]
    exact h.imp fun a ha => ⟨ha.1, decide_eq_true ha.2⟩
  obtain ⟨a, ha⟩ := Option.isSome_iff_exists.mp hsome
  have hP : decide (P a) = true := List.find?_some (p := (P ·)) ha
  exact ⟨a, ha, List.mem_of_find?_eq_some ha, of_decide_eq_true hP⟩

variable (undefined values) in
/-- A phi node has a value that the block before it holds at its end. -/
theorem PhiInv.phiValue_eq (hs : s.PhiInv cfg) (h : ∃ φ ∈ s.phis x, φ.er = er)
    (hpred : y ∈ s.graph.preds x) :
    s.phiValue undefined values (some y) x er = some (values y er) ∧
      (s.r_fresh_inst_mp y er).isSome = true := by
  obtain ⟨φ, hφ, hmem, rfl⟩ := exists_find? (fun φ : PHINode β => φ.er = er) h
  have hcomplete := hs.phis x φ hmem
  obtain ⟨i, hi, hiy⟩ := List.mem_map.mp ((hcomplete.blocks y).mpr hpred)
  obtain ⟨j, hj, hjmem, hjy⟩ := exists_find? (some ·.2 = some y) ⟨i, hi, congrArg some hiy⟩
  obtain ⟨hvalue, hknown⟩ := hcomplete.values j hjmem
  rw [Option.some.inj hjy] at hvalue hknown
  refine ⟨?_, hknown⟩
  rw [phiValue, hφ]
  show some (match φ.incoming.find? _ with | some i => _ | none => _) = _
  rw [hj]
  show some (values j.1.getParent j.1.er) = _
  rw [hvalue]

variable (undefined values) in
/-- At the start of the function no phi node has a value. -/
theorem phiValue_first (h : ∃ φ ∈ s.phis x, φ.er = er) :
    s.phiValue undefined values none x er = some (undefined er) := by
  obtain ⟨φ, hφ, -, rfl⟩ := exists_find? (fun φ : PHINode β => φ.er = er) h
  have hnone : φ.incoming.find? (some ·.2 = none) = none := by
    rw [List.find?_eq_none]
    exact fun i _ => by rw [decide_eq_true_eq]; exact Option.some_ne_none _
  rw [phiValue, hφ]
  show some (match φ.incoming.find? _ with | some i => _ | none => _) = _
  rw [hnone]

/-! ### The optimised function forgets -/

variable {f : JoinedFunction β} {drvd_rmp : β → List EcvReg}
  {sema : DecodedInst → List V → EcvReg → V} {cpu regs : EcvReg → V}

/-- The pass has ended for the function. -/
structure Passed (f : JoinedFunction β) (drvd_rmp : β → List EcvReg) (s : PhiState β) : Prop where
  runInv : s.RunInv (f.cfg drvd_rmp)
  covered : s.Covered (f.cfg drvd_rmp)
  idle : s.Idle
  relayInv : s.RelayInv (f.cfg drvd_rmp)

/-- Every block has phi nodes for the registers that it derives, and no others. -/
theorem Passed.hasPhi_iff (h : Passed f drvd_rmp s) (b : β) (er : EcvReg) :
    (∃ φ ∈ s.phis (.orig b), φ.er = er) ↔ er ∈ drvd_rmp b := by
  constructor
  · rintro ⟨φ, hφ, rfl⟩
    have hdrvd := (h.runInv.phiInv.phis _ φ hφ).drvd
    have hdrvd : φ.er ∈ drvd_rmp (s.bb_regs_bag_map (.orig b)) := hdrvd
    rwa [h.runInv.phiInv.graph.bag_orig] at hdrvd
  · exact h.covered.phis b (h.covered.finished_of_reach h.idle (f.reachable b)) er

/-- What the values of the last block on the path stand for. -/
structure Holds (f : JoinedFunction β) (drvd_rmp : β → List EcvReg) (s : PhiState β)
    (cpu : EcvReg → V) (values : BB β → EcvReg → V) (regs : EcvReg → V) (y : BB β) : Prop where
  known : ∀ er, (s.r_fresh_inst_mp y er).isSome = true → values y er = regs er
  untouched : ∀ c, y = .orig c → ∀ er, er ∉ drvd_rmp c →
    ¬ Reaching.Stored instCode (f.insts c) er → regs er = cpu er

variable (undefined) in
/-- The registers at the start of a block. -/
theorem Passed.enter (h : Passed f drvd_rmp s) (hy : Holds f drvd_rmp s cpu values regs y)
    {b : β} (hpred : y ∈ s.graph.preds (.orig b)) :
    cachedValue cpu (s.phiValue undefined values (some y) (.orig b)) =
      Reaching.enter cpu (drvd_rmp b) regs := by
  funext er
  unfold cachedValue Reaching.enter
  split
  · rename_i hder
    obtain ⟨hvalue, hknown⟩ :=
      h.runInv.phiInv.phiValue_eq undefined values ((h.hasPhi_iff b er).mpr hder) hpred
    rw [hvalue]
    exact hy.known er hknown
  · rename_i hder
    rw [phiValue_eq_none fun φ hφ her => hder ((h.hasPhi_iff b er).mp ⟨φ, hφ, her⟩)]
    rfl

variable (cpu undefined values) in
theorem Passed.enter_first (h : Passed f drvd_rmp s) (b : β) :
    cachedValue cpu (s.phiValue undefined values none (.orig b)) =
      Reaching.enter cpu (drvd_rmp b) undefined := by
  funext er
  unfold cachedValue Reaching.enter
  split
  · rename_i hder
    rw [phiValue_first undefined values ((h.hasPhi_iff b er).mpr hder)]
    rfl
  · rename_i hder
    rw [phiValue_eq_none fun φ hφ her => hder ((h.hasPhi_iff b er).mp ⟨φ, hφ, her⟩)]
    rfl

variable (sema values) in
/-- At its end a block holds the registers. -/
theorem holds_block (b : β) {kept : List EcvReg} (hkept : kept = drvd_rmp b)
    (cur : EcvReg → Option V) (hcur : cachedValue cpu cur = Reaching.enter cpu kept regs) :
    Holds f drvd_rmp s cpu
      (Function.update values (.orig b) (cachedValue cpu (updateCacheAll sema cpu (f.insts b) cur)))
      (Reaching.execAll instCode sema (f.insts b) (Reaching.enter cpu kept regs)) (.orig b) := by
  refine ⟨fun er _ => ?_, fun c hc er hder hs => ?_⟩
  · rw [Function.update_self, cachedValue_updateCacheAll, hcur]
  · obtain rfl := BB.orig.inj hc
    rw [Reaching.execAll_of_not_stored hs, hkept]
    exact if_neg hder

variable (undefined) in
/-- **A relay block hands the registers on.** -/
theorem Passed.relay (h : Passed f drvd_rmp s) (hy : Holds f drvd_rmp s cpu values regs y)
    {n : Nat} (hsucc : .relay n ∈ s.graph.succs y) :
    Holds f drvd_rmp s cpu
      (Function.update values (.relay n)
        (cachedValue cpu (s.phiValue undefined values (some y) (.relay n)))) regs (.relay n) := by
  have hg := h.runInv.phiInv.graph
  have hn : n < s.relay_bb_num := by
    by_contra hn
    exact (hg.new n (Nat.le_of_not_lt hn)).not_mem hg.exact _ hsucc
  have hpred := (hg.exact _ _).mpr hsucc
  refine ⟨fun er hknown => ?_, fun c hc => nomatch hc⟩
  rw [Function.update_self]
  by_cases hphi : ∃ φ ∈ s.phis (.relay n), φ.er = er
  · obtain ⟨hvalue, hfresh⟩ := h.runInv.phiInv.phiValue_eq undefined values hphi hpred
    rw [cachedValue, hvalue]
    exact hy.known er hfresh
  · rw [cachedValue, phiValue_eq_none fun φ hφ her => hphi ⟨φ, hφ, her⟩]
    -- it is loaded, and the block before does not touch the register
    rcases h.relayInv.source n hn er hknown with (hsource | ⟨φ, hφ, -⟩) | hu
    · exact absurd hsource hphi
    · rw [h.idle.stack] at hφ
      exact absurd hφ List.not_mem_nil
    · obtain ⟨p, q, hpreds, -⟩ := hg.relay n hn
      rw [hpreds, Finset.mem_singleton] at hpred
      subst hpred
      obtain ⟨hder, hfresh⟩ := hu (.orig p) (by rw [hpreds]; exact Finset.mem_singleton_self _)
      have hder : er ∉ drvd_rmp (s.bb_regs_bag_map (.orig p)) := hder
      rw [hg.bag_orig] at hder
      refine (hy.untouched p rfl er hder fun hs => ?_).symm
      have hvalue := (f.joined p).fresh_of_str ((f.joined p).str_of_stored hs)
      exact Bool.false_ne_true ((hfresh p rfl).symm.trans hvalue)

variable (undefined) in
/-- **The optimised function runs as if it forgot what a block does not derive.** -/
theorem Passed.optimized_eq (h : Passed f drvd_rmp s) (path : List (BB β))
    (hy : Holds f drvd_rmp s cpu values regs y)
    (hpath : List.IsChain (fun x y => y ∈ s.graph.succs x) (y :: path)) :
    s.optimizedOperands f sema cpu undefined (some y) values path =
      Reaching.forgetful instCode f.insts drvd_rmp sema cpu (path.filterMap BB.orig?) regs := by
  induction path generalizing y values regs with
  | nil => rfl
  | cons x path ih =>
      rw [List.isChain_cons_cons] at hpath
      cases x with
      | orig b =>
          have henter := h.enter undefined hy
            ((h.runInv.phiInv.graph.exact _ _).mpr hpath.1)
          have hnext := holds_block (f := f) (s := s) values sema b rfl _ henter
          show cachedOperands sema cpu (f.insts b) _ ++ _ =
            Reaching.operands instCode sema (f.insts b) _ ++ _
          rw [cachedOperands_eq, henter, ← ih hnext hpath.2]
          rfl
      | relay n =>
          have hnext := h.relay undefined hy hpath.1
          exact ih hnext hpath.2

/-- The operands of a path from the first block on. -/
theorem Passed.optimizedOperands_eq (h : Passed f drvd_rmp s) {l' : List (BB β)}
    (hl' : List.IsChain (fun x y => y ∈ s.graph.succs x) (.orig f.entry :: l'))
    (sema : DecodedInst → List V → EcvReg → V) (cpu undefined : EcvReg → V) :
    s.optimizedOperands f sema cpu undefined none (fun _ => undefined) (.orig f.entry :: l') =
      Reaching.forgetful instCode f.insts drvd_rmp sema cpu
        (f.entry :: l'.filterMap BB.orig?) undefined := by
  have henter := h.enter_first undefined (fun _ => undefined) cpu f.entry
  have hfirst := holds_block (f := f) (s := s) (fun _ => undefined) sema f.entry rfl _ henter
  show cachedOperands sema cpu (f.insts f.entry) _ ++ _ =
    Reaching.operands instCode sema (f.insts f.entry) _ ++ _
  rw [cachedOperands_eq, henter, ← h.optimized_eq undefined l' hfirst hl']
  rfl

/-- **The operands are those of a run that forgets nothing exactly when forgetting does not
show.** -/
theorem Passed.keeps_iff (h : Passed f drvd_rmp s) : KeepsReachingValues f s ↔
    Reaching.LoadsSame instCode f.insts f.Edge f.entry drvd_rmp := by
  have hedges := h.runInv.phiInv.graph.onEdges
  have hpaths : ∀ l, List.IsChain f.Edge (f.entry :: l) → ∃ l' : List (BB β),
      List.IsChain (fun x y => y ∈ s.graph.succs x) (.orig f.entry :: l') ∧
        l'.filterMap BB.orig? = l := fun l hl => hedges.exists_path f.entry l hl
  constructor
  · intro hkeeps l hl V sema cpu undefined
    obtain ⟨l', hl', rfl⟩ := hpaths l hl
    rw [← h.optimizedOperands_eq hl' sema cpu undefined]
    exact hkeeps.operands l' hl' V sema cpu undefined
  · intro hsame
    refine ⟨hpaths, fun l' hl' V sema cpu undefined => ?_⟩
    rw [h.optimizedOperands_eq hl' sema cpu undefined]
    apply hsame
    obtain ⟨hchain, hhead⟩ := hedges.isChain_old _ l' hl'
    exact List.isChain_cons.mpr ⟨hhead, hchain⟩

end PhiState

/-! ### The exact condition -/

variable [Fintype β]

/-- What `AnalyzeRegsBags` and `OptimizeVirtualRegsUsage` leave: the bags, and the blocks with
their phi nodes.  The derived registers of a bag come in any order. -/
structure Optimized (f : JoinedFunction β) (order : PtrOrder β) (uninit : β → Bool)
    (addr : AddrOrder β) (g : BagGraph β) (s : PhiState β) : Prop where
  analyzed : Analyzed f.blockGraph order uninit g
  passed : ∃ drvd_rmp : β → List EcvReg,
    (∀ b er, er ∈ drvd_rmp b ↔ (g.drvd_rmp b).contains er = true) ∧
      Machine.Halts (PhiState.step (f.cfg drvd_rmp) · addr) (.start (f.cfg drvd_rmp)) (some s)

/-- A result that arrives at a block where its register is live is carried to the block, and
no block loads a register that is carried to the entry and has not been stored since; whichever
head a loop has that is entered at several blocks. -/
def CarriesReachingValues (f : JoinedFunction β) (uninit : β → Bool) : Prop :=
  ∀ head, f.blockGraph.Heads head →
    Reaching.Faithful instCode f.insts f.Edge f.entry (f.blockGraph.Carried uninit head)

omit [Fintype β] in
/-- The pass leaves the function in the form that its values are read from. -/
theorem PhiState.Passed.of_halts {f : JoinedFunction β} {drvd_rmp : β → List EcvReg}
    {addr : AddrOrder β}
    {s : PhiState β} (h : Machine.Halts (PhiState.step (f.cfg drvd_rmp) · addr)
      (.start (f.cfg drvd_rmp)) (some s)) : PhiState.Passed f drvd_rmp s := by
  obtain ⟨s', hs', hinv, hcov, hidle⟩ := PhiState.halts (f.cfg drvd_rmp) addr
  obtain rfl := Option.some.inj (Machine.halts_unique h hs')
  exact ⟨hinv, hcov, hidle, PhiState.relayInv_of_halts h⟩

/-- **The passes end** and leave an optimised function. -/
theorem exists_optimized (f : JoinedFunction β) (order : PtrOrder β) (uninit : β → Bool)
    (addr : AddrOrder β) : ∃ g s, Optimized f order uninit addr g s := by
  have hreach : ∀ b, Reach f.blockGraph.Edge f.blockGraph.entry b := by
    rw [JoinedFunction.edge_blockGraph]
    exact f.reachable
  obtain ⟨g₀, hremove, hfree⟩ := RemoveLoop.removeLoop_halts f.blockGraph order uninit hreach
  obtain ⟨g₁, g₂, ht⟩ := traversals_halt order hfree hreach
  have hanalyzed : Analyzed f.blockGraph order uninit g₂.deriveAll :=
    ⟨g₀, g₁, g₂, hremove, ht.preceding, ht.succeeding, rfl⟩
  -- the registers that some block accesses
  choose regs hregs using fun b => (f.joined b).exists_regs
  have hfinite : ∀ b er, (g₂.deriveAll.drvd_rmp b).contains er = true →
      er ∈ f.blocks.flatMap regs := by
    intro b er her
    have hmem : ∀ a, f.blockGraph.Loads a er ∨ f.blockGraph.Stores a er →
        er ∈ f.blocks.flatMap regs :=
      fun a ha => List.mem_flatMap.mpr ⟨a, f.complete a, hregs a er ha⟩
    rcases (hanalyzed.contains_iff hreach b er).mp her with
      ⟨-, a, -, ha⟩ | ⟨-, a, -, ha⟩ | ⟨⟨a, -, ha⟩, -⟩
    · exact hmem a (.inr ha)
    · exact hmem a (.inl ha)
    · exact hmem a ha
  obtain ⟨s, hs, -⟩ := PhiState.halts (f.cfg fun b =>
    (f.blocks.flatMap regs).filter fun er => (g₂.deriveAll.drvd_rmp b).contains er) addr
  refine ⟨_, s, hanalyzed, _, fun b er => ?_, hs⟩
  rw [List.mem_filter]
  exact and_iff_right_of_imp (hfinite b er)

namespace Optimized

variable {f : JoinedFunction β} {order : PtrOrder β} {uninit : β → Bool} {addr : AddrOrder β}
  {g : BagGraph β} {s : PhiState β}

/-- The derived registers are those that are carried by the bags. -/
theorem exists_passed (h : Optimized f order uninit addr g s) :
    ∃ drvd_rmp : β → List EcvReg, PhiState.Passed f drvd_rmp s ∧
      ∀ b er, er ∈ drvd_rmp b ↔ f.blockGraph.Carried uninit g.GetTrueBag b er := by
  obtain ⟨hanalyzed, drvd_rmp, hdrvd, hhalts⟩ := h
  refine ⟨drvd_rmp, .of_halts hhalts, fun b er => ?_⟩
  rw [hdrvd]
  apply hanalyzed.contains_iff
  rw [JoinedFunction.edge_blockGraph]
  exact f.reachable

/-- The values reach their reads exactly if the plain function that carries them is faithful. -/
theorem faithful_iff (h : Optimized f order uninit addr g s) :
    KeepsReachingValues f s ↔
      Reaching.Faithful instCode f.insts f.Edge f.entry
        (f.blockGraph.Carried uninit g.GetTrueBag) := by
  obtain ⟨drvd_rmp, hpassed, hdrvd⟩ := h.exists_passed
  have hcarried : (fun b er => er ∈ drvd_rmp b) = f.blockGraph.Carried uninit g.GetTrueBag :=
    funext fun b => funext fun er => propext (hdrvd b er)
  rw [hpassed.keeps_iff, Reaching.loadsSame_iff, hcarried]

/-- The bag of each loop is that of a block at which it is entered. -/
theorem heads (h : Optimized f order uninit addr g s) : f.blockGraph.Heads g.GetTrueBag := by
  apply h.analyzed.heads
  rw [JoinedFunction.edge_blockGraph]
  exact f.reachable

end Optimized

/-! ### A loop of one block -/

namespace ThreeBlocks

instance : Fintype ThreeBlocks := ⟨{.entry, .branch, .last}, fun b => by cases b <;> decide⟩

theorem nodup_blocks : [entry, branch, last].Nodup := by decide

theorem mem_blocks (b : ThreeBlocks) : b ∈ [entry, branch, last] := by
  cases b <;> decide

/-- The bags of the three blocks, in the order of the blocks. -/
def bags : PtrOrder ThreeBlocks where
  bags := [.entry, .branch, .last]
  nodup := nodup_blocks
  complete := mem_blocks

/-- `ADD X20, X20, #1` -/
def addX20 (pc : Nat) : DecodedInst where
  pc := pc
  operands := (AddRegOperand .kActionWrite .RegX .kUseAsAddress 20 .same).getD [] ++
    (AddRegOperand .kActionRead .RegX .kUseAsAddress 20 .same).getD [] ++ [.immediate]
  write_back := none
  results := some 1
  base_read := fun _ h => absurd h (Option.some_ne_none _).symm

/-- What its semantics function returns: the sum of the register and the immediate. -/
def addSema : DecodedInst → List (BitVec 64) → EcvReg → BitVec 64 :=
  fun _ args _ => args.headD 0 + 1

/-- The entry may count in `X20`, the second block does and branches to itself. -/
def counts (counted : Bool) : ThreeBlocks → List DecodedInst
  | .entry => if counted then [addX20 0] else []
  | .branch => [addX20 4]
  | .last => []

theorem liftBlock_counts (counted : Bool) (b : ThreeBlocks) :
    liftBlock (counts counted b) = some ((liftBlock (counts counted b)).getD .empty) := by
  cases b <;> cases counted <;> rfl

/-- The second block branches to itself or leaves. -/
def loopTerminator : ThreeBlocks → Terminator ThreeBlocks
  | .entry => .br .branch
  | .branch => .condBr .branch .last
  | .last => .ret

/-- A loop that counts in `X20`, and an entry that may as well. -/
def countLoop (counted : Bool) : JoinedFunction ThreeBlocks where
  blocks := [.entry, .branch, .last]
  nodup := nodup_blocks
  complete := mem_blocks
  entry := .entry
  terminator := loopTerminator
  entry_first b := by cases b <;> decide
  reachable b := by
    have hbranch : Reach (fun a b => b ∈ (loopTerminator a).successors) .entry .branch :=
      .single (by decide)
    cases b with
    | entry => exact .refl
    | branch => exact hbranch
    | last => exact hbranch.tail (by decide)
  insts := counts counted
  bb_reg_info_node b := (liftBlock (counts counted b)).getD .empty
  joined b := .lift (liftBlock_counts counted b)
  reg_class er := match er.reg_kind with
    | .General => .RegX
    | .Vector => .RegV
    | .Special => .RegP
  one_class b := by cases b <;> cases counted <;> decide
  whole_class er := by
    obtain ⟨kind, number⟩ := er
    cases kind
    · rfl
    · rfl
    · trivial

/-- The edges do not lead back. -/
def rank : ThreeBlocks → Nat
  | .entry => 0
  | .branch => 1
  | .last => 2

theorem rank_le_of_reach {counted : Bool} {a b : ThreeBlocks}
    (h : Reach (countLoop counted).blockGraph.Edge a b) : a.rank ≤ b.rank := by
  rw [JoinedFunction.edge_blockGraph] at h
  induction h with
  | refl => exact le_rfl
  | @tail b c _ hedge ih =>
      have hstep : ∀ b c : ThreeBlocks, c ∈ (loopTerminator b).successors → b.rank ≤ c.rank := by
        intro b c
        cases b <;> cases c <;> decide
      exact ih.trans (hstep b c hedge)

theorem eq_of_mutual {counted : Bool} {a b : ThreeBlocks}
    (h : Mutual (countLoop counted).blockGraph.Edge a b) : a = b := by
  have hrank := le_antisymm (rank_le_of_reach h.1) (rank_le_of_reach h.2)
  cases a <;> cases b <;> first | rfl | cases hrank

/-- Nothing is carried to the entry. -/
theorem not_carried_entry {counted : Bool} {head : ThreeBlocks → ThreeBlocks} (er : EcvReg) :
    ¬ (countLoop counted).blockGraph.Carried (fun _ => false) head .entry er := by
  have hbefore : ∀ a, ¬ (countLoop counted).blockGraph.StrictlyBefore a .entry := by
    rintro a ⟨hto, hfrom⟩
    have hrank := rank_le_of_reach hto
    cases a with
    | entry => exact hfrom .refl
    | branch | last => exact absurd hrank (by decide)
  rintro (⟨-, a, ha, -⟩ | ⟨⟨a, hne, ha⟩ | h, -⟩ | ⟨⟨a, ha, -⟩, -⟩)
  · exact hbefore a ha
  · exact hne (eq_of_mutual ha)
  · cases h
  · exact hbefore a ha

/-- When the entry does not count, nothing is carried to the loop. -/
theorem not_carried_branch {head : ThreeBlocks → ThreeBlocks} :
    ¬ (countLoop false).blockGraph.Carried (fun _ => false) head .branch ⟨.General, 20⟩ := by
  rintro (⟨harg, -⟩ | ⟨⟨a, hne, ha⟩ | h, -⟩ | ⟨⟨a, ha, hacc⟩, -⟩)
  · cases harg
  · exact hne (eq_of_mutual ha)
  · cases h
  · -- only the entry comes strictly before
    have hrank := rank_le_of_reach ha.1
    cases a with
    | entry => rcases hacc with hacc | hacc <;> cases hacc
    | branch => exact ha.2 .refl
    | last => exact absurd hrank (by decide)

/-- After an addition in the entry the result of the loop is carried back to it. -/
theorem carriesReachingValues_countLoop :
    CarriesReachingValues (countLoop true) (fun _ => false) := by
  intro head _
  have hedge : (countLoop true).blockGraph.Edge = (countLoop true).Edge :=
    JoinedFunction.edge_blockGraph
  constructor
  · rintro r b ⟨p, -, ⟨inst, hinst, hr⟩, hpb⟩ hlive
    have hinst : inst ∈ counts true p := hinst
    -- the additions are the only instructions
    have hr : r = ⟨.General, 20⟩ := by
      obtain ⟨pc, rfl⟩ : ∃ pc, inst = addX20 pc := by
        cases p with
        | entry => exact ⟨0, List.mem_singleton.mp hinst⟩
        | branch => exact ⟨4, List.mem_singleton.mp hinst⟩
        | last => cases hinst
      exact List.mem_singleton.mp hr
    cases b with
    | entry =>
        obtain ⟨q, -, hq⟩ := Relation.TransGen.tail'_iff.mp hpb
        exact absurd hq ((countLoop true).entry_first q)
    | branch =>
        -- before the branch the register is stored, and a bag after it reads it
        right; right
        constructor
        · refine ⟨.entry, ⟨?_, fun h => ?_⟩, .inl ?_⟩
          · rw [hedge]
            exact .single (List.mem_singleton_self _)
          · exact absurd (rank_le_of_reach h) (by decide)
          · rw [hr]
            rfl
        · refine ⟨.branch, .refl, ?_, .inl ⟨.branch, .last, .refl _, ?_, fun h => ?_⟩⟩
          · rw [hr]
            rfl
          · rw [hedge]
            exact List.mem_cons_of_mem _ (List.mem_singleton_self _)
          · exact absurd (eq_of_mutual h) (by decide)
    | last =>
        cases hlive with
        | here h => cases h
        | later _ hnext _ => cases hnext
  · -- nothing enters the function undefined
    intro r b hu
    exfalso
    induction hu with
    | entry h => exact not_carried_entry r h
    | edge _ _ _ _ ih => exact ih

end ThreeBlocks

/-- **The optimised function passes on the values that reach the reads when the analysis carries
them**, and only then where every loop without an exit is entered at one block. -/
theorem keepsReachingValues_iff {f : JoinedFunction β} {order : PtrOrder β} {uninit : β → Bool}
    {addr : AddrOrder β} {g : BagGraph β} {s : PhiState β}
    (h : Optimized f order uninit addr g s) :
    (CarriesReachingValues f uninit → KeepsReachingValues f s) ∧
      (f.blockGraph.EnteredOnce → KeepsReachingValues f s → CarriesReachingValues f uninit) := by
  refine ⟨fun hc => h.faithful_iff.mpr (hc _ h.heads), fun honce hkeeps head hhead => ?_⟩
  rw [honce.carried_eq hhead h.heads]
  exact h.faithful_iff.mp hkeeps

theorem keepsReachingValues_countLoop :
    ∃ g s, Optimized (ThreeBlocks.countLoop true) ThreeBlocks.bags (fun _ => false)
        ThreeBlocks.order g s ∧ KeepsReachingValues (ThreeBlocks.countLoop true) s := by
  obtain ⟨g, s, h⟩ := exists_optimized (ThreeBlocks.countLoop true) ThreeBlocks.bags
    (fun _ => false) ThreeBlocks.order
  exact ⟨g, s, h, (keepsReachingValues_iff h).1 ThreeBlocks.carriesReachingValues_countLoop⟩

/-- A block adds one to `X20` and branches to itself: each time round it adds to the value that
`CPUState` had at first. -/
theorem not_keepsReachingValues_countLoop :
    ∃ g s, Optimized (ThreeBlocks.countLoop false) ThreeBlocks.bags (fun _ => false)
        ThreeBlocks.order g s ∧ ¬ KeepsReachingValues (ThreeBlocks.countLoop false) s ∧
      ∃ l', List.IsChain (fun x y => y ∈ s.graph.succs x) (.orig .entry :: l') ∧
      s.optimizedOperands (ThreeBlocks.countLoop false) ThreeBlocks.addSema (fun _ => 0)
        (fun _ => 0) none (fun _ _ => 0) (.orig .entry :: l') = [[0], [0]] ∧
      (ThreeBlocks.countLoop false).operands ThreeBlocks.addSema (fun _ => 0)
        (.entry :: l'.filterMap BB.orig?) = [[0], [1]] := by
  obtain ⟨g, s, h⟩ := exists_optimized (ThreeBlocks.countLoop false) ThreeBlocks.bags
    (fun _ => false) ThreeBlocks.order
  obtain ⟨drvd_rmp, hpassed, hdrvd⟩ := h.exists_passed
  have hnot : ⟨.General, 20⟩ ∉ drvd_rmp .branch := fun hmem =>
    ThreeBlocks.not_carried_branch ((hdrvd _ _).mp hmem)
  have hpath : List.IsChain (ThreeBlocks.countLoop false).Edge [.entry, .branch, .branch] := by
    simp only [List.isChain_cons_cons, List.isChain_singleton, and_true]
    exact ⟨List.mem_singleton_self _, List.mem_cons_self⟩
  obtain ⟨l', hl', hblocks⟩ :=
    hpassed.runInv.phiInv.graph.onEdges.exists_path .entry [.branch, .branch] hpath
  -- the block has no value of the register, so it loads what was there at first
  have hload : ∀ regs, Reaching.operands instCode ThreeBlocks.addSema
      ((ThreeBlocks.countLoop false).insts .branch)
      (Reaching.enter (fun _ => 0) (drvd_rmp .branch) regs) = [[0]] := by
    intro regs
    show [[Reaching.enter (fun _ => 0) (drvd_rmp .branch) regs ⟨.General, 20⟩]] = [[0]]
    rw [Reaching.enter, if_neg hnot]
  have hoptimized : s.optimizedOperands (ThreeBlocks.countLoop false) ThreeBlocks.addSema
      (fun _ => 0) (fun _ => 0) none (fun _ _ => 0) (.orig .entry :: l') = [[0], [0]] := by
    refine (hpassed.optimizedOperands_eq hl' ThreeBlocks.addSema (fun _ => 0) fun _ => 0).trans ?_
    rw [hblocks]
    show Reaching.operands _ _ ((ThreeBlocks.countLoop false).insts .entry) _ ++
      (Reaching.operands _ _ ((ThreeBlocks.countLoop false).insts .branch) _ ++
        (Reaching.operands _ _ ((ThreeBlocks.countLoop false).insts .branch) _ ++ [])) = _
    rw [hload, hload]
    rfl
  have hoperands : (ThreeBlocks.countLoop false).operands ThreeBlocks.addSema (fun _ => 0)
      (.entry :: l'.filterMap BB.orig?) = [[0], [1]] := by
    rw [hblocks]
    rfl
  refine ⟨g, s, h, fun hkeeps => ?_, l', hl', hoptimized, hoperands⟩
  have hsame := hkeeps.operands l' hl' _ ThreeBlocks.addSema (fun _ => 0) fun _ => 0
  exact absurd (hoptimized.symm.trans (hsame.trans hoperands)) (by decide)

end Elfconv
