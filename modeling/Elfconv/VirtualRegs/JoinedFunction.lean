/-
Elfconv/VirtualRegs/JoinedFunction.lean

A lifted function without calls, as the analysis of the registers finds it.

Blocks that follow each other have been joined: the summary of a block comes from those of the
blocks that were lifted (`Joined`).  The analysis gets the summaries (`blockGraph`), the phi
pass the derived registers, the accesses and the values from lifting (`cfg`).
-/
import Elfconv.VirtualRegs.Carried
import Elfconv.VirtualRegs.JoinRegInfo
import Elfconv.VirtualRegs.PhiNodes

namespace Elfconv

open Component

/-! ### The code of a block -/

namespace DecodedInst

/-- The registers that are loaded for an instruction: for its operands and the new address. -/
def loads (inst : DecodedInst) : List EcvReg := inst.emitted.map Prod.fst

/-- The registers that an instruction leaves a value in. -/
def stores (inst : DecodedInst) : List EcvReg :=
  (inst.written.map Prod.fst).filter fun er => er.number ≠ IGNORE_WRITE_TO_XZR_ORDER

/-- The registers that `cur_r_inst_mp` has after an instruction. -/
def accesses (inst : DecodedInst) : List EcvReg := inst.loads ++ inst.written.map Prod.fst

theorem mem_stores {inst : DecodedInst} {er : EcvReg} :
    er ∈ inst.stores ↔ (∃ erc, (er, erc) ∈ inst.written) ∧
      er.number ≠ IGNORE_WRITE_TO_XZR_ORDER := by
  simp [stores]

end DecodedInst

/-- The summary of a block that was lifted, or joined from two. -/
inductive Joined : List DecodedInst → BBRegInfoNode → Prop
  | lift {insts : List DecodedInst} {n : BBRegInfoNode} : liftBlock insts = some n →
      Joined insts n
  | join {P C : List DecodedInst} {nP nC n : BBRegInfoNode} : Joined P nP → Joined C nC →
      nP.join_reg_info_node nC = some n → Joined (P ++ C) n

namespace Joined

variable {insts P C : List DecodedInst} {n nP nC : BBRegInfoNode} {er : EcvReg}

/-- The entries of a joined summary for a register. -/
theorem entries (h : nP.join_reg_info_node nC = some n) (er : EcvReg) :
    n.bb_str_r_mp er = (nC.bb_str_r_mp er).or (nP.bb_str_r_mp er) ∧
      ((n.r_fresh_inst_mp.lookup er).isSome = true ↔
        (nP.r_fresh_inst_mp.lookup er).isSome = true ∨
          (nC.r_fresh_inst_mp.lookup er).isSome = true) := by
  obtain ⟨o, ho, hof⟩ := Option.map_eq_some_iff.mp (BBRegInfoNode.join_at.mp h er)
  have hkeys := BBRegInfoNode.isSome_joinFreshOf ho
  rw [Finset.mem_union, nP.r_fresh_inst_mp.mem_keys, nC.r_fresh_inst_mp.mem_keys] at hkeys
  have hfresh : n.r_fresh_inst_mp.lookup er = o := (congrArg RegSummary.fresh hof).symm
  rw [hfresh]
  exact ⟨(congrArg RegSummary.str hof).symm, hkeys⟩

/-- The registers that are stored are in `bb_str_r_mp`. -/
theorem str_of_stored (h : Joined insts n) (hs : ∃ inst ∈ insts, er ∈ inst.stores) :
    (n.bb_str_r_mp er).isSome = true := by
  induction h with
  | @lift insts n hlift =>
      obtain ⟨inst, hinst, hmem⟩ := hs
      obtain ⟨⟨erc, hwritten⟩, hnum⟩ := DecodedInst.mem_stores.mp hmem
      have hstr : n.bb_str_r_mp er = firstWrite (usesOf insts) er :=
        congrArg RegSummary.str (of_liftBlock hlift er)
      rw [hstr, firstWrite_usesOf_isSome hnum]
      exact ⟨inst, hinst, erc, hwritten⟩
  | @join P C nP nC n _ _ hjoin ihP ihC =>
      rw [(entries hjoin er).1, Option.isSome_or, Bool.or_eq_true]
      obtain ⟨inst, hinst, hmem⟩ := hs
      rcases List.mem_append.mp hinst with hP | hC
      · exact .inr (ihP ⟨inst, hP, hmem⟩)
      · exact .inl (ihC ⟨inst, hC, hmem⟩)

/-- A register in `bb_str_r_mp` has a value. -/
theorem fresh_of_str (h : Joined insts n) (hs : (n.bb_str_r_mp er).isSome = true) :
    (n.r_fresh_inst_mp.lookup er).isSome = true := by
  induction h with
  | lift hlift => exact valued_liftBlock hlift er hs
  | join _ _ hjoin ihP ihC =>
      rw [(entries hjoin er).1, Option.isSome_or, Bool.or_eq_true] at hs
      rw [(entries hjoin er).2]
      exact hs.symm.imp ihP ihC

end Joined

theorem Operand.mem_loads_of_isLoad {op : Operand} {r : LiftedRead} (h : op.liftRead = some r)
    (hload : r.lifted.isLoad = true) : r.info ∈ r.lifted.loads := by
  obtain ⟨⟨reg, lift⟩, hreads, h⟩ := Option.bind_eq_some_iff.mp h
  obtain ⟨info, -, h⟩ := Option.bind_eq_some_iff.mp h
  obtain ⟨lifted, hlift, h⟩ := Option.bind_eq_some_iff.mp h
  cases h
  cases op with
  | write | immediate => cases hreads
  | read reg arg_type =>
      cases hreads
      cases hlift
      revert hload
      unfold LiftRegisterOperand
      split
      · exact fun h => absurd h Bool.false_ne_true
      · split
        · exact fun h => absurd h Bool.false_ne_true
        · exact fun _ => List.mem_singleton_self _
  | shiftRegister op size =>
      cases hreads
      obtain ⟨isLoad, -, rfl⟩ := Option.map_eq_some_iff.mp hlift
      exact List.mem_singleton_self _
  | address base_reg displacement =>
      cases hreads
      unfold LiftAddressOperand at hlift
      split at hlift
      · split at hlift
        · cases hlift
          exact absurd hload Bool.false_ne_true
        · cases hlift
          exact List.mem_singleton_self _
      · cases hlift

theorem RegUse.of_read_value {info : EcvReg × ERC} {counted : Bool} {value : Option SSAValue}
    {er : EcvReg} (h : ((RegUse.read info counted value).valueOf er).isSome = true) :
    value.isSome = true ∧ info.1 = er := by
  cases value with
  | none => cases h
  | some v =>
      refine ⟨rfl, ?_⟩
      by_contra her
      simp only [valueOf, if_neg her] at h
      cases h

theorem RegUse.of_write_value {info : EcvReg × ERC} {v : SSAValue} {order : Nat} {er : EcvReg}
    (h : ((RegUse.write info v order).valueOf er).isSome = true) : info.1 = er := by
  by_contra her
  simp only [valueOf, if_neg her] at h
  cases h

/-- A use that leaves a value is an access of its instruction. -/
theorem DecodedInst.mem_accesses_of_use {inst : DecodedInst} {u : RegUse} {er : EcvReg}
    (hu : u ∈ inst.uses) (h : (u.valueOf er).isSome = true) : er ∈ inst.accesses := by
  have hread : ∀ op ∈ inst.operands, ∀ r, op.liftRead = some r → r.lifted.isLoad = true →
      r.info.1 ∈ inst.accesses := by
    intro op hop r hr hload
    apply List.mem_append_left
    apply List.mem_map_of_mem (f := Prod.fst)
    apply List.mem_append_left
    refine List.mem_flatMap.mpr ⟨op, hop, ?_⟩
    rw [hr]
    exact List.mem_flatMap.mpr
      ⟨r, List.mem_singleton_self _, Operand.mem_loads_of_isLoad hr hload⟩
  have hwrite : ∀ info ∈ inst.written, info.1 ∈ inst.accesses := fun info hinfo =>
    List.mem_append_right _ (List.mem_map_of_mem hinfo)
  unfold uses at hu
  -- the uses in their order: read operands, the index, results, the base
  rcases List.mem_append.mp hu with hu | hu
  · rcases List.mem_append.mp hu with hu | hu
    · rcases List.mem_append.mp hu with hu | hu
      · obtain ⟨op, hop, hu⟩ := List.mem_filterMap.mp hu
        obtain ⟨r, hr, rfl⟩ := Option.map_eq_some_iff.mp hu
        obtain ⟨hvalue, rfl⟩ := RegUse.of_read_value h
        apply hread op.1 (List.fst_mem_of_mem_zipIdx hop) r hr
        by_contra hload
        rw [if_neg hload] at hvalue
        cases hvalue
      · -- the index of a write-back leaves no value
        obtain ⟨w, -, hu⟩ := List.mem_flatMap.mp hu
        obtain ⟨info, -, rfl⟩ := Option.map_eq_some_iff.mp (Option.mem_toList.mp hu)
        cases h
    · obtain ⟨w, hw, hu⟩ := List.mem_filterMap.mp hu
      split at hu
      · cases hu
      · obtain rfl := Option.some.inj hu
        obtain rfl := RegUse.of_write_value h
        exact hwrite _ (List.mem_append_left _ (List.fst_mem_of_mem_zipIdx hw))
  · obtain ⟨w, hw, hu⟩ := List.mem_flatMap.mp hu
    obtain ⟨info, hinfo, rfl⟩ := Option.map_eq_some_iff.mp (Option.mem_toList.mp hu)
    obtain rfl := RegUse.of_write_value h
    apply hwrite
    exact List.mem_append_right _ (List.mem_flatMap.mpr ⟨w, hw, Option.mem_toList.mpr hinfo⟩)

/-- A value from lifting stands for a register that is accessed. -/
theorem Joined.accessed_of_fresh {insts : List DecodedInst} {n : BBRegInfoNode} {er : EcvReg}
    (h : Joined insts n) (hfresh : (n.r_fresh_inst_mp.lookup er).isSome = true) :
    ∃ inst ∈ insts, er ∈ inst.accesses := by
  induction h with
  | @lift insts n hlift =>
      have hlast : n.r_fresh_inst_mp.lookup er = lastValue (usesOf insts) er :=
        congrArg RegSummary.fresh (of_liftBlock hlift er)
      rw [hlast, lastValue, List.findSome?_isSome_iff] at hfresh
      obtain ⟨u, hu, hvalue⟩ := hfresh
      obtain ⟨inst, hinst, hu⟩ := List.mem_flatMap.mp (List.mem_reverse.mp hu)
      exact ⟨inst, hinst, DecodedInst.mem_accesses_of_use hu hvalue⟩
  | join _ _ hjoin ihP ihC =>
      rcases (Joined.entries hjoin er).2.mp hfresh with hP | hC
      · obtain ⟨inst, hinst, hmem⟩ := ihP hP
        exact ⟨inst, List.mem_append_left _ hinst, hmem⟩
      · obtain ⟨inst, hinst, hmem⟩ := ihC hC
        exact ⟨inst, List.mem_append_right _ hinst, hmem⟩

/-- The register of a use. -/
def RegUse.reg : RegUse → EcvReg
  | .read info _ _ => info.1
  | .write info _ _ => info.1

theorem RegUse.reg_of_countedOf {u : RegUse} {er : EcvReg} (h : (u.countedOf er).isSome = true) :
    u.reg = er := by
  unfold countedOf at h
  split at h
  · rw [Option.isSome_ite] at h
    exact h
  · cases h
  · cases h

theorem RegUse.reg_of_writtenOf {u : RegUse} {er : EcvReg} (h : (u.writtenOf er).isSome = true) :
    u.reg = er := by
  unfold writtenOf at h
  split at h
  · rw [Option.isSome_ite] at h
    exact h
  · cases h

/-- A summary has finitely many registers. -/
theorem Joined.exists_regs {insts : List DecodedInst} {n : BBRegInfoNode} (h : Joined insts n) :
    ∃ regs : List EcvReg, ∀ er,
      (n.bb_ld_r_mp er).isSome = true ∨ (n.bb_str_r_mp er).isSome = true → er ∈ regs := by
  -- on the joins that made the block: both parts have finitely many registers
  induction h with
  | @lift insts n hlift =>
      refine ⟨(usesOf insts).map RegUse.reg, fun er her => ?_⟩
      have hld : n.bb_ld_r_mp er = firstRead (usesOf insts) er :=
        congrArg RegSummary.ld (of_liftBlock hlift er)
      have hstr : n.bb_str_r_mp er = firstWrite (usesOf insts) er :=
        congrArg RegSummary.str (of_liftBlock hlift er)
      rw [hld, hstr, firstRead, firstWrite, List.findSome?_isSome_iff,
        List.findSome?_isSome_iff] at her
      rcases her with ⟨u, hu, hread⟩ | ⟨u, hu, hwrite⟩
      · rw [← RegUse.reg_of_countedOf hread]
        exact List.mem_map_of_mem hu
      · rw [← RegUse.reg_of_writtenOf hwrite]
        exact List.mem_map_of_mem hu
  | @join P C nP nC n _ _ hjoin ihP ihC =>
      obtain ⟨regsP, hP⟩ := ihP
      obtain ⟨regsC, hC⟩ := ihC
      refine ⟨regsP ++ regsC, fun er her => List.mem_append.mpr ?_⟩
      obtain ⟨o, -, hof⟩ := Option.map_eq_some_iff.mp (BBRegInfoNode.join_at.mp hjoin er)
      have hld := (congrArg RegSummary.ld hof).symm
      have hstr := (congrArg RegSummary.str hof).symm
      rcases her with hread | hwrite
      · have hread : (n.of er).ld.isSome = true := hread
        rw [hld, Option.isSome_or, Bool.or_eq_true] at hread
        rcases hread with hread | hread
        · exact .inl (hP er (.inl hread))
        · split at hread
          · cases hread
          · exact .inr (hC er (.inl hread))
      · have hwrite : (n.of er).str.isSome = true := hwrite
        rw [hstr, Option.isSome_or, Bool.or_eq_true] at hwrite
        rcases hwrite with hwrite | hwrite
        · exact .inr (hC er (.inr hwrite))
        · exact .inl (hP er (.inr hwrite))

/-! ### The function -/

/-- The class that has the whole of a register. -/
def EcvReg.WholeClass (er : EcvReg) (erc : ERC) : Prop :=
  match er.reg_kind with
  | .General => erc = .RegX
  | .Vector => ERCSize erc = 128
  | .Special => True

/-- A lifted function without an indirect branch, a lifted call or a system call, all of whose
blocks can be reached.  Every register is accessed by one class, which has the whole of it. -/
structure JoinedFunction (β : Type) where
  blocks : List β
  nodup : blocks.Nodup
  complete : ∀ b, b ∈ blocks
  entry : β
  terminator : β → Terminator β
  /-- the entry block of a function has no predecessors -/
  entry_first : ∀ b, entry ∉ (terminator b).successors
  reachable : ∀ b, Reach (fun a b => b ∈ (terminator a).successors) entry b
  insts : β → List DecodedInst
  bb_reg_info_node : β → BBRegInfoNode
  joined : ∀ b, Joined (insts b) (bb_reg_info_node b)
  reg_class : EcvReg → ERC
  one_class : ∀ b, ∀ inst ∈ insts b, ∀ a ∈ inst.emitted ++ inst.written, a.2 = reg_class a.1
  whole_class : ∀ er : EcvReg, er.WholeClass (reg_class er)

namespace JoinedFunction

variable {β : Type} [Fintype β] [DecidableEq β] (f : JoinedFunction β)

/-- What the analysis starts with. -/
def blockGraph : BlockGraph β where
  entry := f.entry
  bb_parents b := Finset.univ.filter fun p => 0 < (f.terminator p).successors.count b
  bb_ld_r_mp b := (f.bb_reg_info_node b).bb_ld_r_mp
  bb_str_r_mp b := (f.bb_reg_info_node b).bb_str_r_mp

omit [Fintype β] [DecidableEq β] in
theorem accessed_of_fresh (b : β) (er : EcvReg)
    (h : ((f.bb_reg_info_node b).r_fresh_inst_mp.lookup er).isSome = true) :
    ((f.insts b).any fun inst => 0 < inst.accesses.count er) = true := by
  obtain ⟨inst, hinst, hmem⟩ := (f.joined b).accessed_of_fresh h
  exact List.any_eq_true.mpr ⟨inst, hinst, decide_eq_true (List.count_pos_iff.mpr hmem)⟩

omit [Fintype β] [DecidableEq β] in
/-- What the phi pass starts with, for the registers that the blocks derive. -/
def cfg (drvd_rmp : β → List EcvReg) : LiftedCFG β where
  blocks := f.blocks
  nodup := f.nodup
  complete := f.complete
  entry := f.entry
  terminator := f.terminator
  drvd_rmp := drvd_rmp
  accessed b er := (f.insts b).any fun inst => 0 < inst.accesses.count er
  r_fresh_inst_mp b er := ((f.bb_reg_info_node b).r_fresh_inst_mp.lookup er).isSome
  fresh_accessed := f.accessed_of_fresh

/-- There is a branch from the one block to the other. -/
def Edge (f : JoinedFunction β) (a b : β) : Prop := b ∈ (f.terminator a).successors

variable {f}

theorem edge_blockGraph : f.blockGraph.Edge = f.Edge := by
  funext a b
  apply propext
  show a ∈ Finset.univ.filter _ ↔ _
  rw [Finset.mem_filter, and_iff_right (Finset.mem_univ a), List.count_pos_iff]
  exact Iff.rfl

end JoinedFunction

end Elfconv
