/-
Elfconv/VirtualRegs/LiftIntoBlock.lean

`LiftIntoBlock`: what lifting an instruction enters in the register summary of its block.

The summary has three maps with three rules.  `bb_ld_r_mp` keeps the class of the first read
that is entered, `bb_str_r_mp` that of the first write, and `r_fresh_inst_mp` is overwritten
by every value.  `uses` lists the accesses of an instruction in the order of their effect, and
`Records us n n'` says that `n'` is `n` with the uses `us` entered; instructions and blocks
compose by it (`liftBlock_records`).

The loads are emitted from the same operands by other code.  `Complete` says that the summary
of a block covers them; it does so exactly when every load before the first write of its
register is no wider than the first read of the register that is entered (`complete_iff`).
-/
import Elfconv.VirtualRegs.Operands
import Elfconv.VirtualRegs.RegMap
import Mathlib.Data.Finset.Insert
import Mathlib.Logic.Function.Basic

namespace Elfconv

/-- `insert`: an entry that is there already stays. -/
def EcvRegMap.insert (m : EcvRegMap) (info : EcvReg × ERC) : EcvRegMap := fun er =>
  (m er).or (if info.1 = er then some info.2 else none)

/-- The instructions that stand for the value of a register. -/
inductive SSAValue
  | operand (pc i : Nat)
  | sema (pc : Nat)
  | newAddr (pc : Nat)
  deriving DecidableEq

/-- An entry of `r_fresh_inst_mp`.  The class is `none` for `RegNULL`. -/
structure FreshInst where
  erc : Option ERC
  value : SSAValue
  order : Nat
  stored : Bool
  deriving DecidableEq

/-- `r_fresh_inst_mp`, with its keys. -/
structure FreshMap where
  lookup : EcvReg → Option FreshInst
  keys : Finset EcvReg
  mem_keys : ∀ er, er ∈ keys ↔ (lookup er).isSome = true

namespace FreshMap

/-- A map is determined by its entries. -/
theorem ext_lookup {m m' : FreshMap} (h : ∀ er, m.lookup er = m'.lookup er) : m = m' := by
  obtain ⟨lookup, keys, hkeys⟩ := m
  obtain ⟨lookup', keys', hkeys'⟩ := m'
  obtain rfl : lookup = lookup' := funext h
  obtain rfl : keys = keys' := by
    ext er
    rw [hkeys, hkeys']
  rfl

/-- No entries. -/
def empty : FreshMap where
  lookup := fun _ => none
  keys := ∅
  mem_keys := fun er => by simp

/-- `insert_or_assign` -/
def insert_or_assign (m : FreshMap) (er : EcvReg) (v : FreshInst) : FreshMap where
  lookup := Function.update m.lookup er (some v)
  keys := insert er m.keys
  mem_keys := by
    intro er'
    rw [Finset.mem_insert, m.mem_keys]
    by_cases h : er' = er
    · subst h
      simp
    · simp [h]

/-- The last value that was assigned is found. -/
theorem lookup_insert_or_assign (m : FreshMap) (er er' : EcvReg) (v : FreshInst) :
    (m.insert_or_assign er v).lookup er' =
      (if er = er' then some v else none).or (m.lookup er') := by
  show Function.update m.lookup er (some v) er' = _
  by_cases h : er = er'
  · subst h
    simp
  · rw [Function.update_of_ne (Ne.symm h), if_neg h, Option.none_or]

end FreshMap

/-- The register summary of a block. -/
structure BBRegInfoNode where
  bb_ld_r_mp : EcvRegMap
  bb_str_r_mp : EcvRegMap
  r_fresh_inst_mp : FreshMap

/-- The summary of a block without instructions. -/
def BBRegInfoNode.empty : BBRegInfoNode := ⟨fun _ => none, fun _ => none, .empty⟩

/-! ### Lifting an instruction -/

/-- An operand that is read: its register, and what lifting it gives. -/
structure LiftedRead where
  info : EcvReg × ERC
  counted : Bool
  lifted : Lifted

/-- `none` for an operand that is not read, or where lifting it stops the run. -/
def Operand.liftRead (op : Operand) : Option LiftedRead := do
  let (reg, lift) ← op.reads
  let info ← GetRegInfo reg.name
  let lifted ← lift info
  return ⟨info, reg.counted, lifted⟩

/-- The operand loop fills the maps of the node and collects the registers of the writes. -/
structure OperandLoop where
  node : BBRegInfoNode
  write_regs : List (EcvReg × ERC)

namespace OperandLoop

/-- The register of a write operand. -/
def recordWrite (s : OperandLoop) (reg : Register) (info : EcvReg × ERC) : OperandLoop where
  node :=
    if reg.name = .IGNORE_WRITE_TO_XZR then s.node
    else { s.node with bb_str_r_mp := s.node.bb_str_r_mp.insert info }
  write_regs := s.write_regs ++ [info]

/-- An operand that is read. -/
def recordRead (pc i : Nat) (s : OperandLoop) (r : LiftedRead) : OperandLoop :=
  { s with node :=
    { s.node with
      bb_ld_r_mp := if r.counted then s.node.bb_ld_r_mp.insert r.info else s.node.bb_ld_r_mp
      -- only a load that is passed on as it is stands for the register
      r_fresh_inst_mp :=
        if r.lifted.isLoad then
          s.node.r_fresh_inst_mp.insert_or_assign r.info.1
            ⟨if r.counted then some r.info.2 else none, .operand pc i, 0, false⟩
        else s.node.r_fresh_inst_mp } }

/-- An operand; nothing where lifting it stops the run. -/
def step (pc : Nat) (s : OperandLoop) (op : Operand × Nat) : Option OperandLoop :=
  match op.1 with
  | .immediate => some s
  | .write reg => (GetRegInfo reg.name).map (s.recordWrite reg)
  | .read .. | .shiftRegister .. | .address .. => op.1.liftRead.map (s.recordRead pc op.2)

end OperandLoop

/-- The results of the semantics function, one for each register that is written. -/
def recordResults (pc : Nat) (fresh : FreshMap) (write_regs : List (EcvReg × ERC)) : FreshMap :=
  write_regs.zipIdx.foldl
    (fun m w =>
      if w.1.1.number = IGNORE_WRITE_TO_XZR_ORDER then m
      else m.insert_or_assign w.1.1 ⟨some w.1.2, .sema pc, w.2, true⟩)
    fresh

/-- The update of the base of a pre- or post-indexed access. -/
def recordWriteBack (pc : Nat) (node : BBRegInfoNode) (w : WriteBack) :
    Option BBRegInfoNode := do
  let updated ← GetRegInfo w.updated_reg.name
  let node :=
    { node with
      bb_str_r_mp := node.bb_str_r_mp.insert updated
      r_fresh_inst_mp :=
        node.r_fresh_inst_mp.insert_or_assign updated.1 ⟨some updated.2, .newAddr pc, 0, true⟩ }
  -- the index register is loaded for the addition
  match w.index_reg with
  | none => some node
  | some reg => do
      let index ← GetRegInfo reg.name
      return { node with bb_ld_r_mp := node.bb_ld_r_mp.insert index }

/-- `LiftIntoBlock`; `none` where it stops the run. -/
def LiftIntoBlock (node : BBRegInfoNode) (inst : DecodedInst) : Option BBRegInfoNode := do
  let s ← inst.operands.zipIdx.foldlM (OperandLoop.step inst.pc) ⟨node, []⟩
  if inst.results.any (· ≠ s.write_regs.length) then none
  else
    let node :=
      { s.node with
        r_fresh_inst_mp := recordResults inst.pc s.node.r_fresh_inst_mp s.write_regs }
    match inst.write_back with
    | none => some node
    | some w => recordWriteBack inst.pc node w

/-- The summary of a block, its instructions lifted in order. -/
def liftBlock (insts : List DecodedInst) : Option BBRegInfoNode :=
  insts.foldlM LiftIntoBlock .empty

/-! ### The accesses of an instruction -/

/-- An access to a register: a read, whether it is entered in `bb_ld_r_mp`, and the value that
it leaves; or a write. -/
inductive RegUse
  | read (info : EcvReg × ERC) (counted : Bool) (value : Option SSAValue)
  | write (info : EcvReg × ERC) (value : SSAValue) (order : Nat)
  deriving DecidableEq

namespace RegUse

/-- The class by which a use enters a register in `bb_ld_r_mp`. -/
def countedOf (er : EcvReg) : RegUse → Option ERC
  | .read info true _ => if info.1 = er then some info.2 else none
  | .read _ false _ | .write .. => none

/-- The class by which a use writes the register. -/
def writtenOf (er : EcvReg) : RegUse → Option ERC
  | .write info _ _ => if info.1 = er then some info.2 else none
  | .read .. => none

/-- The entry of `r_fresh_inst_mp` that a use leaves for a register. -/
def valueOf (er : EcvReg) : RegUse → Option FreshInst
  | .read info counted (some v) =>
      if info.1 = er then some ⟨if counted then some info.2 else none, v, 0, false⟩ else none
  | .read _ _ none => none
  | .write info v order => if info.1 = er then some ⟨some info.2, v, order, true⟩ else none

end RegUse

/-- The class of the first counted read of a register. -/
def firstRead (us : List RegUse) (er : EcvReg) : Option ERC :=
  us.findSome? (RegUse.countedOf er)

/-- The class of the first write of a register. -/
def firstWrite (us : List RegUse) (er : EcvReg) : Option ERC :=
  us.findSome? (RegUse.writtenOf er)

/-- The entry that the last use with a value leaves. -/
def lastValue (us : List RegUse) (er : EcvReg) : Option FreshInst :=
  us.reverse.findSome? (RegUse.valueOf er)

/-- The use of an operand that is read. -/
def LiftedRead.use (pc i : Nat) (r : LiftedRead) : RegUse :=
  .read r.info r.counted (if r.lifted.isLoad then some (.operand pc i) else none)

/-- The registers of the write operands. -/
def writeRegs (operands : List Operand) : List (EcvReg × ERC) :=
  operands.filterMap fun
    | .write reg => GetRegInfo reg.name
    | _ => none

/-- The uses of the operands that are read, in order. -/
def operandReads (pc : Nat) (operands : List (Operand × Nat)) : List RegUse :=
  operands.filterMap fun op => op.1.liftRead.map (LiftedRead.use pc op.2)

/-- The results, but for those that are written to a zero register. -/
def resultWrites (pc : Nat) (write_regs : List ((EcvReg × ERC) × Nat)) : List RegUse :=
  write_regs.filterMap fun w =>
    if w.1.1.number = IGNORE_WRITE_TO_XZR_ORDER then none else some (.write w.1 (.sema pc) w.2)

/-- The use of the register that is added to the base. -/
def WriteBack.indexRead (w : WriteBack) : List RegUse :=
  ((w.index_reg.bind fun reg => GetRegInfo reg.name).map fun info =>
    .read info true none).toList

/-- The use of the base that is updated. -/
def WriteBack.baseWrite (pc : Nat) (w : WriteBack) : List RegUse :=
  ((GetRegInfo w.updated_reg.name).map fun info => .write info (.newAddr pc) 0).toList

namespace DecodedInst

/-- The accesses of an instruction.  Everything is read before anything is written. -/
def uses (inst : DecodedInst) : List RegUse :=
  operandReads inst.pc inst.operands.zipIdx ++ inst.write_back.toList.flatMap WriteBack.indexRead ++
    resultWrites inst.pc (writeRegs inst.operands).zipIdx ++
    inst.write_back.toList.flatMap (WriteBack.baseWrite inst.pc)

/-- The loads that lifting emits: those of the operands, and of the new address of a
write-back. -/
def emitted (inst : DecodedInst) : List (EcvReg × ERC) :=
  inst.operands.flatMap (fun op => op.liftRead.toList.flatMap fun r => r.lifted.loads) ++
    inst.write_back.toList.flatMap fun w =>
      if w.base_reg.name = .PC then []
      else (GetRegInfo w.base_reg.name).toList ++
        (w.index_reg.bind fun reg => GetRegInfo reg.name).toList

/-- The registers of the write operands and of the write-back. -/
def written (inst : DecodedInst) : List (EcvReg × ERC) :=
  writeRegs inst.operands ++
    inst.write_back.toList.flatMap fun w => (GetRegInfo w.updated_reg.name).toList

end DecodedInst

/-- The accesses of a block. -/
def usesOf (insts : List DecodedInst) : List RegUse := insts.flatMap DecodedInst.uses

/-! ### What is entered -/

section Uses

variable {us vs : List RegUse} {er : EcvReg}

/-- The first read of two sequences. -/
@[simp] theorem firstRead_append :
    firstRead (us ++ vs) er = (firstRead us er).or (firstRead vs er) :=
  List.findSome?_append

/-- The first write of two sequences. -/
@[simp] theorem firstWrite_append :
    firstWrite (us ++ vs) er = (firstWrite us er).or (firstWrite vs er) :=
  List.findSome?_append

/-- The last value of two sequences. -/
@[simp] theorem lastValue_append :
    lastValue (us ++ vs) er = (lastValue vs er).or (lastValue us er) := by
  unfold lastValue
  rw [List.reverse_append, List.findSome?_append]

@[simp] theorem lastValue_cons {u : RegUse} :
    lastValue (u :: us) er = (lastValue us er).or (u.valueOf er) := by
  unfold lastValue
  rw [List.reverse_cons, List.findSome?_append, List.findSome?_singleton]

end Uses

/-- `n'` is `n` with the uses entered in their order. -/
structure Records (us : List RegUse) (n n' : BBRegInfoNode) : Prop where
  ld : ∀ er, n'.bb_ld_r_mp er = (n.bb_ld_r_mp er).or (firstRead us er)
  str : ∀ er, n'.bb_str_r_mp er = (n.bb_str_r_mp er).or (firstWrite us er)
  fresh : ∀ er, n'.r_fresh_inst_mp.lookup er =
    (lastValue us er).or (n.r_fresh_inst_mp.lookup er)

theorem records_nil (n : BBRegInfoNode) : Records [] n n where
  ld := fun _ => Option.or_none.symm
  str := fun _ => Option.or_none.symm
  fresh := fun _ => Option.none_or.symm

/-- The entries of two sequences are made one after the other. -/
theorem Records.append {us vs : List RegUse} {n n' n'' : BBRegInfoNode} (h : Records us n n')
    (h' : Records vs n' n'') : Records (us ++ vs) n n'' where
  ld := fun er => by rw [h'.ld, h.ld, firstRead_append, Option.or_assoc]
  str := fun er => by rw [h'.str, h.str, firstWrite_append, Option.or_assoc]
  fresh := fun er => by rw [h'.fresh, h.fresh, lastValue_append, Option.or_assoc]

/-- One name has the number of the ignored register. -/
theorem getRegInfo_ignored {name : RegName} {info : EcvReg × ERC}
    (h : GetRegInfo name = some info) :
    info.1.number = IGNORE_WRITE_TO_XZR_ORDER ↔ name = .IGNORE_WRITE_TO_XZR := by
  have hlt : ∀ n : Nat, n < 32 → n ≠ IGNORE_WRITE_TO_XZR_ORDER := fun n hn => by
    unfold IGNORE_WRITE_TO_XZR_ORDER
    omega
  cases name with
  | X n | W n =>
      cases h
      exact iff_of_false (hlt n (by omega)) nofun
  | vec erc n hv =>
      cases h
      exact iff_of_false (hlt n n.isLt) nofun
  | WSP | SUPPRESS_WRITEBACK => cases h
  | IGNORE_WRITE_TO_XZR =>
      cases h
      exact iff_of_true rfl rfl
  | SP | PC | XZR | WZR | MONITOR | ECV_NZCV | BRANCH_TAKEN =>
      cases h
      exact iff_of_false (by decide) nofun

/-- The class by which a register that is written enters `bb_str_r_mp`. -/
def stores (er : EcvReg) (info : EcvReg × ERC) : Option ERC :=
  if info.1.number = IGNORE_WRITE_TO_XZR_ORDER then none
  else if info.1 = er then some info.2 else none

theorem firstWrite_resultWrites (pc : Nat) (write_regs : List (EcvReg × ERC)) (i : Nat)
    (er : EcvReg) :
    firstWrite (resultWrites pc (write_regs.zipIdx i)) er = write_regs.findSome? (stores er) := by
  induction write_regs generalizing i with
  | nil => rfl
  | cons info write_regs ih =>
      rw [List.zipIdx_cons, List.findSome?_cons, ← ih (i + 1)]
      by_cases hz : info.1.number = IGNORE_WRITE_TO_XZR_ORDER
      · simp only [resultWrites, List.filterMap_cons, stores, if_pos hz]
      · simp only [resultWrites, List.filterMap_cons, stores, if_neg hz, firstWrite,
          List.findSome?_cons, RegUse.writtenOf]

theorem firstRead_resultWrites (pc : Nat) (write_regs : List ((EcvReg × ERC) × Nat))
    (er : EcvReg) : firstRead (resultWrites pc write_regs) er = none := by
  refine List.findSome?_eq_none_iff.mpr fun u hu => ?_
  obtain ⟨w, -, hw⟩ := List.mem_filterMap.mp hu
  split at hw
  · cases hw
  · cases hw
    rfl

/-- Each result overwrites the value its register had. -/
theorem lookup_recordResults (pc : Nat) (write_regs : List (EcvReg × ERC)) (i : Nat)
    (fresh : FreshMap) (er : EcvReg) :
    ((write_regs.zipIdx i).foldl
      (fun m w =>
        if w.1.1.number = IGNORE_WRITE_TO_XZR_ORDER then m
        else m.insert_or_assign w.1.1 ⟨some w.1.2, .sema pc, w.2, true⟩) fresh).lookup er =
      (lastValue (resultWrites pc (write_regs.zipIdx i)) er).or (fresh.lookup er) := by
  induction write_regs generalizing i fresh with
  | nil => rfl
  | cons info write_regs ih =>
      rw [List.zipIdx_cons, List.foldl_cons, ih]
      by_cases hz : info.1.number = IGNORE_WRITE_TO_XZR_ORDER
      · simp only [resultWrites, List.filterMap_cons, if_pos hz]
      · rw [if_neg hz, FreshMap.lookup_insert_or_assign, ← Option.or_assoc]
        simp only [resultWrites, List.filterMap_cons, if_neg hz, lastValue_cons, RegUse.valueOf]

theorem operandReads_append (pc : Nat) (ops ops' : List (Operand × Nat)) :
    operandReads pc (ops ++ ops') = operandReads pc ops ++ operandReads pc ops' :=
  List.filterMap_append

theorem writeRegs_append (ops ops' : List Operand) :
    writeRegs (ops ++ ops') = writeRegs ops ++ writeRegs ops' :=
  List.filterMap_append

/-- What the operand loop has done to the maps: the reads are entered whole, of the writes
only the class. -/
structure OperandLoop.Entered (pc : Nat) (ops : List (Operand × Nat)) (s s' : OperandLoop) :
    Prop where
  write_regs : s'.write_regs = s.write_regs ++ writeRegs (ops.map Prod.fst)
  ld : ∀ er, s'.node.bb_ld_r_mp er =
    (s.node.bb_ld_r_mp er).or (firstRead (operandReads pc ops) er)
  str : ∀ er, s'.node.bb_str_r_mp er =
    (s.node.bb_str_r_mp er).or ((writeRegs (ops.map Prod.fst)).findSome? (stores er))
  fresh : ∀ er, s'.node.r_fresh_inst_mp.lookup er =
    (lastValue (operandReads pc ops) er).or (s.node.r_fresh_inst_mp.lookup er)

namespace OperandLoop

variable {pc : Nat} {s s' s'' : OperandLoop} {ops ops' : List (Operand × Nat)}

theorem entered_nil (pc : Nat) (s : OperandLoop) : s.Entered pc [] s where
  write_regs := (List.append_nil _).symm
  ld := fun _ => Option.or_none.symm
  str := fun _ => Option.or_none.symm
  fresh := fun _ => Option.none_or.symm

/-- The operands of two lists are entered one after the other. -/
theorem Entered.append (h : s.Entered pc ops s') (h' : s'.Entered pc ops' s'') :
    s.Entered pc (ops ++ ops') s'' where
  write_regs := by
    rw [h'.write_regs, h.write_regs, List.append_assoc, List.map_append, writeRegs_append]
  ld := fun er => by
    rw [h'.ld, h.ld, Option.or_assoc, operandReads_append, firstRead_append]
  str := fun er => by
    rw [h'.str, h.str, Option.or_assoc, List.map_append, writeRegs_append,
      List.findSome?_append]
  fresh := fun er => by
    rw [h'.fresh, h.fresh, ← Option.or_assoc, operandReads_append, lastValue_append]

theorem entered_immediate (i : Nat) : s.Entered pc [(.immediate, i)] s :=
  ⟨(List.append_nil _).symm, fun _ => Option.or_none.symm, fun _ => Option.or_none.symm,
    fun _ => Option.none_or.symm⟩

/-- A write operand is noted as a register to be written. -/
theorem entered_write {reg : Register} {info : EcvReg × ERC} (i : Nat)
    (h : GetRegInfo reg.name = some info) :
    s.Entered pc [(.write reg, i)] (s.recordWrite reg info) := by
  have hregs : writeRegs [.write reg] = [info] := by
    show (GetRegInfo reg.name).toList = [info]
    rw [h]
    rfl
  have hnone : operandReads pc [(.write reg, i)] = [] := rfl
  refine ⟨congrArg (s.write_regs ++ ·) hregs.symm, fun er => ?_, fun er => ?_, fun er => ?_⟩
  · show (if _ then s.node else _).bb_ld_r_mp er = _
    rw [hnone, apply_ite BBRegInfoNode.bb_ld_r_mp, ite_self]
    exact Option.or_none.symm
  · show (if _ then s.node else _).bb_str_r_mp er = _
    rw [List.map_singleton, hregs, List.findSome?_singleton, stores]
    by_cases hz : reg.name = .IGNORE_WRITE_TO_XZR
    · rw [if_pos hz, if_pos ((getRegInfo_ignored h).mpr hz), Option.or_none]
    · rw [if_neg hz, if_neg (mt (getRegInfo_ignored h).mp hz)]
      rfl
  · show (if _ then s.node else _).r_fresh_inst_mp.lookup er = _
    rw [hnone, apply_ite BBRegInfoNode.r_fresh_inst_mp, ite_self]
    exact Option.none_or.symm

/-- A read operand makes its entries at once. -/
theorem entered_read {op : Operand} {r : LiftedRead} (i : Nat) (h : op.liftRead = some r)
    (hop : writeRegs [op] = []) : s.Entered pc [(op, i)] (s.recordRead pc i r) := by
  have hreads : operandReads pc [(op, i)] = [r.use pc i] := by
    rw [operandReads, List.filterMap_cons]
    simp only [h, Option.map_some, List.filterMap_nil]
  refine ⟨?_, fun er => ?_, fun er => ?_, fun er => ?_⟩
  · rw [List.map_singleton, hop, List.append_nil]
    rfl
  · show (if _ then s.node.bb_ld_r_mp.insert r.info else s.node.bb_ld_r_mp) er = _
    rw [hreads, firstRead, List.findSome?_singleton, LiftedRead.use]
    cases r.counted with
    | true => rfl
    | false => exact Option.or_none.symm
  · rw [List.map_singleton, hop]
    exact Option.or_none.symm
  · show (if _ then _ else s.node.r_fresh_inst_mp).lookup er = _
    rw [hreads, lastValue_cons, LiftedRead.use]
    cases r.lifted.isLoad with
    | true => exact FreshMap.lookup_insert_or_assign _ _ _ _
    | false => rfl

/-- What an operand enters. -/
theorem step_spec {op : Operand × Nat} (h : s.step pc op = some s') :
    s.Entered pc [op] s' := by
  obtain ⟨op, i⟩ := op
  cases op with
  | immediate =>
      cases h
      exact entered_immediate i
  | write reg =>
      obtain ⟨info, hinfo, rfl⟩ := Option.map_eq_some_iff.mp h
      exact entered_write i hinfo
  | read | shiftRegister | address =>
      obtain ⟨r, hr, rfl⟩ := Option.map_eq_some_iff.mp h
      exact entered_read i hr rfl

/-- What the loop over the operands enters. -/
theorem run_spec (h : ops.foldlM (step pc) s = some s') : s.Entered pc ops s' := by
  induction ops generalizing s with
  | nil =>
      obtain rfl := Option.some.inj h
      exact entered_nil pc s
  | cons op ops ih =>
      rw [List.foldlM_cons] at h
      obtain ⟨s₁, h₁, h₂⟩ := Option.bind_eq_some_iff.mp h
      exact (step_spec h₁).append (ih h₂)

end OperandLoop

variable {n n' : BBRegInfoNode} {inst : DecodedInst} {insts insts' : List DecodedInst}

/-- The order of two uses is of no account where they enter different maps. -/
theorem Records.congr {us vs : List RegUse} (h : Records us n n')
    (hread : ∀ er, firstRead us er = firstRead vs er)
    (hwrite : ∀ er, firstWrite us er = firstWrite vs er)
    (hvalue : ∀ er, lastValue us er = lastValue vs er) : Records vs n n' where
  ld := fun er => by rw [h.ld, hread]
  str := fun er => by rw [h.str, hwrite]
  fresh := fun er => by rw [h.fresh, hvalue]

theorem baseWrite_records {pc : Nat} {w : WriteBack} {updated : EcvReg × ERC}
    (h : GetRegInfo w.updated_reg.name = some updated) :
    Records (w.baseWrite pc) n
      { n with
        bb_str_r_mp := n.bb_str_r_mp.insert updated
        r_fresh_inst_mp := n.r_fresh_inst_mp.insert_or_assign updated.1
          ⟨some updated.2, .newAddr pc, 0, true⟩ } := by
  rw [WriteBack.baseWrite, h]
  refine ⟨fun er => Option.or_none.symm, fun er => ?_, fun er => ?_⟩
  · show _ = Option.or _ (firstWrite [.write updated (.newAddr pc) 0] er)
    rw [firstWrite, List.findSome?_singleton]
    rfl
  · show FreshMap.lookup _ er = Option.or (lastValue [.write updated (.newAddr pc) 0] er) _
    rw [lastValue_cons]
    exact FreshMap.lookup_insert_or_assign _ _ _ _

/-- The base is entered as written before the index is entered as read. -/
theorem recordWriteBack_records {pc : Nat} {w : WriteBack}
    (h : recordWriteBack pc n w = some n') :
    Records (w.baseWrite pc ++ w.indexRead) n n' := by
  unfold recordWriteBack at h
  obtain ⟨updated, hupdated, h⟩ := Option.bind_eq_some_iff.mp h
  have hbase := @baseWrite_records n pc w updated hupdated
  unfold WriteBack.indexRead
  cases hindex : w.index_reg with
  | none =>
      rw [hindex] at h
      cases h
      exact hbase.append (records_nil _)
  | some reg =>
      rw [hindex] at h
      obtain ⟨index, hreg, h⟩ := Option.bind_eq_some_iff.mp h
      cases h
      refine hbase.append ?_
      show Records ((GetRegInfo reg.name).map _).toList _ _
      rw [hreg]
      refine ⟨fun er => ?_, fun er => Option.or_none.symm, fun er => Option.none_or.symm⟩
      show _ = Option.or _ (firstRead [.read index true none] er)
      rw [firstRead, List.findSome?_singleton]
      rfl

theorem firstRead_baseWrite (pc : Nat) (w : WriteBack) (er : EcvReg) :
    firstRead (w.baseWrite pc) er = none := by
  unfold WriteBack.baseWrite
  cases GetRegInfo w.updated_reg.name <;> rfl

theorem firstWrite_indexRead (w : WriteBack) (er : EcvReg) :
    firstWrite w.indexRead er = none := by
  unfold WriteBack.indexRead
  cases w.index_reg.bind _ <;> rfl

theorem lastValue_indexRead (w : WriteBack) (er : EcvReg) : lastValue w.indexRead er = none := by
  unfold WriteBack.indexRead
  cases w.index_reg.bind _ <;> rfl

theorem firstWrite_operandReads (pc : Nat) (ops : List (Operand × Nat)) (er : EcvReg) :
    firstWrite (operandReads pc ops) er = none := by
  refine List.findSome?_eq_none_iff.mpr fun u hu => ?_
  obtain ⟨op, -, hop⟩ := List.mem_filterMap.mp hu
  obtain ⟨r, -, rfl⟩ := Option.map_eq_some_iff.mp hop
  rfl

/-- Lifting an instruction makes the entries of its uses. -/
theorem liftIntoBlock_records (h : LiftIntoBlock n inst = some n') :
    Records inst.uses n n' := by
  unfold LiftIntoBlock at h
  obtain ⟨s, hs, h⟩ := Option.bind_eq_some_iff.mp h
  have hrun := OperandLoop.run_spec hs
  have hregs : s.write_regs = writeRegs inst.operands := by
    rw [hrun.write_regs, List.zipIdx_map_fst]
    rfl
  -- the operands and the results, as if there were no write-back
  have hcall : Records (operandReads inst.pc inst.operands.zipIdx ++
      resultWrites inst.pc (writeRegs inst.operands).zipIdx) n
      { s.node with
        r_fresh_inst_mp := recordResults inst.pc s.node.r_fresh_inst_mp s.write_regs } := by
    refine ⟨fun er => ?_, fun er => ?_, fun er => ?_⟩
    · rw [firstRead_append, firstRead_resultWrites, Option.or_none]
      exact hrun.ld er
    · rw [firstWrite_append, firstWrite_operandReads, Option.none_or, firstWrite_resultWrites]
      have hstr := hrun.str er
      rwa [List.zipIdx_map_fst] at hstr
    · rw [lastValue_append, Option.or_assoc, hregs]
      show FreshMap.lookup _ er = _
      rw [recordResults, lookup_recordResults]
      exact congrArg _ (hrun.fresh er)
  split at h
  · cases h
  · unfold DecodedInst.uses
    cases hw : inst.write_back with
    | none =>
        rw [hw] at h
        cases h
        exact hcall.congr (fun er => by simp) (fun er => by simp) fun er => by simp
    | some w =>
        rw [hw] at h
        refine (hcall.append (recordWriteBack_records h)).congr (fun er => ?_) (fun er => ?_)
          fun er => ?_
        · simp [firstRead_resultWrites, firstRead_baseWrite]
        · simp [firstWrite_indexRead]
        · simp [lastValue_indexRead]

/-- **The summary of a block**: its uses, entered in the empty node. -/
theorem liftBlock_records (h : insts.foldlM LiftIntoBlock n = some n') :
    Records (usesOf insts) n n' := by
  induction insts generalizing n with
  | nil =>
      obtain rfl := Option.some.inj h
      exact records_nil n
  | cons inst insts ih =>
      rw [List.foldlM_cons] at h
      obtain ⟨n₁, h₁, h₂⟩ := Option.bind_eq_some_iff.mp h
      rw [usesOf, List.flatMap_cons]
      exact (liftIntoBlock_records h₁).append (ih h₂)

/-! ### The summary covers what is lifted -/

/-- `er` is written by an instruction of the list. -/
def WrittenIn (insts : List DecodedInst) (er : EcvReg) : Prop :=
  ∃ inst ∈ insts, ∃ erc, (er, erc) ∈ inst.written

/-- The class `erc` of a load of `er` that is emitted when no instruction before has written
the register. -/
def LoadedFirst (insts : List DecodedInst) (er : EcvReg) (erc : ERC) : Prop :=
  ∃ before inst after, insts = before ++ inst :: after ∧ (er, erc) ∈ inst.emitted ∧
    ¬ WrittenIn before er

/-- **The summary of a block is complete**: the loads of a register before it is written are
in `bb_ld_r_mp`, by a class as wide, and the registers written are in `bb_str_r_mp`. -/
structure Complete (insts : List DecodedInst) (n : BBRegInfoNode) : Prop where
  loads : ∀ er erc, ¬ er.IsZero → LoadedFirst insts er erc →
    ∃ erc', n.bb_ld_r_mp er = some erc' ∧ ERCSize erc ≤ ERCSize erc'
  stores : ∀ er, ¬ er.IsZero → WrittenIn insts er → (n.bb_str_r_mp er).isSome = true

/-- The first read of a register that is entered is as wide as every load of it before it is
written. -/
def FirstEnteredWidest (insts : List DecodedInst) : Prop :=
  ∀ er erc, ¬ er.IsZero → LoadedFirst insts er erc →
    ∃ erc', firstRead (usesOf insts) er = some erc' ∧ ERCSize erc ≤ ERCSize erc'

theorem firstWrite_uses (inst : DecodedInst) (er : EcvReg) :
    firstWrite inst.uses er =
      ((writeRegs inst.operands).findSome? (stores er)).or
        (firstWrite (inst.write_back.toList.flatMap (WriteBack.baseWrite inst.pc)) er) := by
  have hindex : firstWrite (inst.write_back.toList.flatMap WriteBack.indexRead) er = none := by
    cases inst.write_back with
    | none => rfl
    | some w =>
        rw [Option.toList_some, List.flatMap_singleton]
        exact firstWrite_indexRead w er
  unfold DecodedInst.uses
  rw [firstWrite_append, firstWrite_append, firstWrite_append, firstWrite_operandReads,
    firstWrite_resultWrites, hindex]
  rfl

/-- The uses write the registers of the write operands and of the write-back, no others. -/
theorem firstWrite_uses_isSome {er : EcvReg} (hz : er.number ≠ IGNORE_WRITE_TO_XZR_ORDER) :
    (firstWrite inst.uses er).isSome = true ↔ ∃ erc, (er, erc) ∈ inst.written := by
  have hstores : ∀ info : EcvReg × ERC, (stores er info).isSome = true ↔ info.1 = er := by
    intro info
    unfold stores
    by_cases he : info.1 = er
    · rw [he, if_neg hz, if_pos rfl]
      exact iff_of_true rfl rfl
    · rw [if_neg he, ite_self]
      exact iff_of_false Bool.false_ne_true he
  -- the writes of the operands, and the write of the base that is updated
  have hops : (((writeRegs inst.operands).findSome? (stores er)).isSome = true ↔
      ∃ erc, (er, erc) ∈ writeRegs inst.operands) := by
    rw [List.findSome?_isSome_iff]
    constructor
    · rintro ⟨info, hinfo, h⟩
      exact ⟨info.2, (hstores info).mp h ▸ hinfo⟩
    · rintro ⟨erc, h⟩
      exact ⟨(er, erc), h, (hstores _).mpr rfl⟩
  have hbase : (firstWrite (inst.write_back.toList.flatMap (WriteBack.baseWrite inst.pc)) er).isSome
      = true ↔ ∃ erc, (er, erc) ∈ inst.write_back.toList.flatMap fun w =>
        (GetRegInfo w.updated_reg.name).toList := by
    cases inst.write_back with
    | none => exact iff_of_false Bool.false_ne_true fun ⟨_, h⟩ => nomatch h
    | some w =>
        rw [Option.toList_some, List.flatMap_singleton, List.flatMap_singleton,
          WriteBack.baseWrite]
        cases GetRegInfo w.updated_reg.name with
        | none => exact iff_of_false Bool.false_ne_true fun ⟨_, h⟩ => nomatch h
        | some info =>
            show (firstWrite [.write info (.newAddr inst.pc) 0] er).isSome = true ↔
              ∃ erc, (er, erc) ∈ [info]
            rw [firstWrite, List.findSome?_singleton, RegUse.writtenOf]
            by_cases he : info.1 = er
            · rw [if_pos he]
              exact iff_of_true rfl ⟨info.2, List.mem_singleton.mpr (he ▸ rfl)⟩
            · rw [if_neg he]
              refine iff_of_false Bool.false_ne_true fun ⟨erc, h⟩ => he ?_
              rw [← List.mem_singleton.mp h]
  rw [firstWrite_uses, Option.isSome_or, Bool.or_eq_true, hops, hbase]
  unfold DecodedInst.written
  simp only [List.mem_append, exists_or]

/-- The registers that a block writes, from its instructions. -/
theorem firstWrite_usesOf_isSome {er : EcvReg} (hz : er.number ≠ IGNORE_WRITE_TO_XZR_ORDER) :
    (firstWrite (usesOf insts) er).isSome = true ↔ WrittenIn insts er := by
  induction insts with
  | nil => exact iff_of_false Bool.false_ne_true fun ⟨_, h, _⟩ => nomatch h
  | cons inst insts ih =>
      rw [usesOf, List.flatMap_cons, firstWrite_append, Option.isSome_or, Bool.or_eq_true,
        firstWrite_uses_isSome hz]
      show _ ∨ (firstWrite (usesOf insts) er).isSome = true ↔ _
      rw [ih]
      simp [WrittenIn]

/-- **The summary of a block is complete exactly when the first read of each register that is
entered is as wide as the loads of the register before it is written.** -/
theorem complete_iff (h : liftBlock insts = some n) :
    Complete insts n ↔ FirstEnteredWidest insts := by
  have hr := liftBlock_records h
  have hld : ∀ er, n.bb_ld_r_mp er = firstRead (usesOf insts) er := fun er => by
    rw [hr.ld]
    exact Option.none_or
  constructor
  · intro hc er erc hz hload
    rw [← hld]
    exact hc.loads er erc hz hload
  · intro hf
    refine ⟨fun er erc hz hload => ?_, fun er hz hw => ?_⟩
    · rw [hld]
      exact hf er erc hz hload
    · rw [hr.str]
      exact (firstWrite_usesOf_isSome fun h => hz (.inr (.inr h))).mpr hw

/-- An instruction that writes `Rd` from `Rn` (`FMOV`, `CLZ`). -/
def unaryInst (pc : Nat) (rclass : ERC) (Rd Rn : Nat) : DecodedInst where
  pc := pc
  operands := ((AddRegOperand .kActionWrite rclass .kUseAsValue Rd .same).getD []) ++
    (AddRegOperand .kActionRead rclass .kUseAsValue Rn .same).getD []
  write_back := none
  results := some 1
  base_read := fun _ h => absurd h (Option.some_ne_none _).symm

theorem complete_iff_fmov :
    ∃ n, liftBlock [unaryInst 0 .RegD 0 31] = some n ∧
      (Complete [unaryInst 0 .RegD 0 31] n ↔ FirstEnteredWidest [unaryInst 0 .RegD 0 31]) :=
  ⟨_, rfl, complete_iff rfl⟩

/-- The read of the vector register 31 in `FMOV D0, D31` is taken for one of a zero register. -/
theorem not_complete_fmov :
    ∃ n, liftBlock [unaryInst 0 .RegD 0 31] = some n ∧
      ¬ Complete [unaryInst 0 .RegD 0 31] n := by
  refine ⟨_, rfl, fun hc => ?_⟩
  have hz : ¬ EcvReg.IsZero ⟨.Vector, 31⟩ := by
    unfold EcvReg.IsZero
    decide
  have hload : LoadedFirst [unaryInst 0 .RegD 0 31] ⟨.Vector, 31⟩ .RegD := by
    refine ⟨[], unaryInst 0 .RegD 0 31, [], rfl, ?_, fun ⟨_, h, _⟩ => nomatch h⟩
    show (_, _) ∈ [((⟨.Vector, 31⟩ : EcvReg), ERC.RegD)]
    exact List.mem_singleton.mpr rfl
  obtain ⟨erc, herc, -⟩ := hc.loads _ _ hz hload
  cases herc

end Elfconv
