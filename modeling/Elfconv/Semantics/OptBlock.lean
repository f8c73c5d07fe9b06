/-
Elfconv/Semantics/OptBlock.lean

Decoded instructions in a block of an optimised function.

A load of a register is replaced by the latest value of `cur_r_inst_mp`, cast to the class of the
load, or it is the first access and is kept, with its class, for the loads behind it.  The results
of a call and the new base of a write-back go into the map; none of them is stored.

After the loads of an instruction a register reads, by whatever class, as the bits of its value with
zeros above (`Cache.regs`), so that what is known of an instruction on stored registers says what it
does here.
-/
import Elfconv.Semantics.Execute

namespace Elfconv.AArch64

/-! ### Loads -/

/-- `cur_r_inst_mp` -/
abbrev Cache := EcvReg → Option Value

/-- The value that a load gives, and the map after it. -/
def Cache.load (R : RegFile) (cur : Cache) (er : EcvReg) (erc : ERC) : Value × Cache :=
  match cur er with
  | some v => (castFromInst v erc, cur)
  | none => (.low erc (R er), Function.update cur er (some (.low erc (R er))))

/-- A register is read from the map; there is none of the name of a zero register. -/
def Cache.LoadRegValue (R : RegFile) (cur : Cache) (name : RegName) : Option (Value × Cache) :=
  if name = .XZR ∨ name = .WZR then none
  else (GetRegInfo name).map fun p => Cache.load R cur p.1 p.2

/-- A zero register is a constant as a plain operand. -/
def Cache.liftRegister (R : RegFile) (cur : Cache) (name : RegName) : Option (Value × Cache) :=
  if name = .XZR then some (⟨.RegX, 0#64⟩, cur)
  else if name = .WZR then some (⟨.RegW, 0#32⟩, cur)
  else cur.LoadRegValue R name

/-- A base and a displacement. -/
def Cache.liftAddress (R : RegFile) (cur : Cache) (base_reg : BitVec 5) (displacement : BitVec 64) :
    Option (BitVec 64 × Cache) := do
  let name ← regNameOf .kActionRead .RegX .kUseAsAddress base_reg.toNat
  let (base, cur) ← cur.LoadRegValue R name
  return (base.bits.setWidth 64 + displacement, cur)

/-- The register that is added to the base, zero where there is none. -/
def Cache.liftIndex (R : RegFile) (cur : Cache) : Option (BitVec 5) → Option (BitVec 64 × Cache)
  | none => some (0#64, cur)
  | some index_reg => do
      let name ← regNameOf .kActionRead .RegX .kUseAsAddress index_reg.toNat
      let (index, cur) ← cur.LoadRegValue R name
      return (index.bits.setWidth 64 * 1#64, cur)

/-- The new value of the base, lifted like an address. -/
def Cache.new_addr (R : RegFile) (cur : Cache) (u : IndexUpdate) :
    Option (BitVec 64 × Cache) := do
  let (addr, cur) ← cur.liftAddress R u.base_reg u.displacement
  let (index, cur) ← cur.liftIndex R u.index_reg
  return (addr + index, cur)

/-- The arguments that come from an operand. -/
def Cache.args (R : RegFile) (cur : Cache) : SemaOperand → Option (List Arg × Cache)
  | .reg .kActionWrite _ _ _ => some ([], cur)
  | .reg _ rclass rtype reg_num => do
      let name ← regNameOf .kActionRead rclass rtype reg_num.toNat
      let (v, cur) ← cur.liftRegister R name
      return ([.value v], cur)
  | .imm val => some ([.word val], cur)
  | .address base_reg displacement => do
      let (addr, cur) ← cur.liftAddress R base_reg displacement
      return ([.word addr], cur)
  | .shiftReg rclass reg_num op => do
      let name ← regNameOf .kActionRead rclass .kUseAsValue reg_num.toNat
      let (v, cur) ← cur.LoadRegValue R name
      let bits ← liftShiftRegister op v
      return ([.word bits], cur)

/-- The arguments of all operands, in order. -/
def Cache.argsEach (R : RegFile) (cur : Cache) :
    List SemaOperand → Option (List (List Arg) × Cache)
  | [] => some ([], cur)
  | op :: operands => do
      let (args, cur) ← cur.args R op
      let (rest, cur) ← Cache.argsEach R cur operands
      return (args :: rest, cur)

/-- The map with the results of a call in it. -/
def Cache.insertEach (cur : Cache) (ers : List EcvReg) (vs : List Value) : Cache :=
  (ers.zip vs).foldl (fun cur p => Function.update cur p.1 (some p.2)) cur

/-! ### Instructions -/

/-- The registers with results in them, one after the other. -/
def storeEach (R : RegFile) (ers : List EcvReg) (vs : List Value) : RegFile :=
  (ers.zip vs).foldl (fun R p =>
    if p.1.number = IGNORE_WRITE_TO_XZR_ORDER then R else storeResult R p.1 p.2) R

/-- The map and the memory at a point of the block, and what the registers hold there: what was
stored to them if every result were stored at once. -/
structure BlockState where
  cur : Cache
  mem : Memory
  regs : RegFile

/-- The guest, were every result stored at once. -/
def BlockState.guest (s : BlockState) : Guest := ⟨s.regs, s.mem⟩

/-- The block starts with the registers of its phi nodes in the map. -/
def BlockState.start (drvd : EcvReg → Option ERC) (g : Guest) : BlockState where
  cur := fun er => (drvd er).map fun erc => .low erc (g.regs er)
  mem := g.mem
  regs := g.regs

/-- The write-back, after the results. -/
def BlockState.update (R : RegFile) (s : BlockState) :
    Option (Option IndexUpdate) → Option BlockState
  | none => some s
  | some none => none
  | some (some u) => do
      let name ← regNameOf .kActionWrite .RegX .kUseAsAddress u.base_reg.toNat
      let (er, _) ← GetRegInfo name
      let (new_addr, cur) ← s.cur.new_addr R u
      -- the store is erased
      return { s with
        cur := Function.update cur er (some ⟨.RegX, new_addr⟩)
        regs := storeResult s.regs er ⟨.RegX, new_addr⟩ }

/-- A decoded instruction, with the registers `R` in `CPUState`. -/
def BlockState.exec (R : RegFile) (sema : Sema) (i : SemaInst) (s : BlockState) :
    Option BlockState := do
  let (args, cur) ← s.cur.argsEach R i.operands
  let writes ← i.operands.mapM SemaOperand.writes
  let (results, mem) ← sema args.flatten s.mem
  if writes.flatten.length = results.length then
    BlockState.update R
      ⟨cur.insertEach writes.flatten results, mem, storeEach s.regs writes.flatten results⟩
      i.write_back
  else none

/-! ### What a load gives -/

/-- The registers that are loaded, by their classes. -/
def nameLoads (name : RegName) : List (EcvReg × ERC) :=
  if name = .XZR ∨ name = .WZR then [] else (GetRegInfo name).toList

/-- The register that is loaded by a number. -/
def regLoads (rclass : ERC) (rtype : RegUsage) (reg_num : BitVec 5) : List (EcvReg × ERC) :=
  (regNameOf .kActionRead rclass rtype reg_num.toNat).elim [] nameLoads

/-- The registers that an operand loads. -/
def SemaOperand.loads : SemaOperand → List (EcvReg × ERC)
  | .reg .kActionWrite _ _ _ | .imm _ => []
  | .reg _ rclass rtype reg_num => regLoads rclass rtype reg_num
  | .address base_reg _ => regLoads .RegX .kUseAsAddress base_reg
  | .shiftReg rclass reg_num _ => regLoads rclass .kUseAsValue reg_num

/-- The registers that a write-back loads. -/
def IndexUpdate.loads (u : IndexUpdate) : List (EcvReg × ERC) :=
  regLoads .RegX .kUseAsAddress u.base_reg ++
    u.index_reg.elim [] (regLoads .RegX .kUseAsAddress)

/-- The class of the first load of a register. -/
def firstClass (er : EcvReg) (loads : List (EcvReg × ERC)) : Option ERC :=
  loads.findSome? fun a => if a.1 = er then some a.2 else none

theorem firstClass_cons (er : EcvReg) (a : EcvReg × ERC) (loads : List (EcvReg × ERC)) :
    firstClass er (a :: loads) =
      (if a.1 = er then some a.2 else none).or (firstClass er loads) := by
  unfold firstClass
  rw [List.findSome?_cons]
  by_cases h : a.1 = er
  · rw [if_pos h]
    rfl
  · rw [if_neg h]
    rfl

/-- The map after loads. -/
def Cache.touch (R : RegFile) (cur : Cache) (loads : List (EcvReg × ERC)) : Cache :=
  loads.foldl (fun cur a => (Cache.load R cur a.1 a.2).2) cur

/-- The registers as the block reads them. -/
def Cache.regs (R : RegFile) (cur : Cache) : RegFile := fun er =>
  match cur er with
  | some v => v.whole
  | none => R er

section

variable {R V : RegFile} {cur : Cache} {er : EcvReg} {erc : ERC} {v : Value}

theorem Cache.regs_of_some (h : cur er = some v) : cur.regs R er = v.whole := by
  rw [regs, h]

theorem Value.low_whole (erc : ERC) (reg : BitVec 128) :
    Value.low erc (Value.low erc reg).whole = .low erc reg :=
  congrArg (Value.mk erc) (BitVec.setWidth_setWidth_of_le _ (ERCSize_le erc) |>.trans
    (BitVec.setWidth_eq _))

theorem Cache.load_of_some (h : cur er = some v) :
    Cache.load R cur er erc = (castFromInst v erc, cur) := by
  rw [load, h]

theorem Cache.load_of_none (h : cur er = none) :
    Cache.load R cur er erc =
      (.low erc (R er), Function.update cur er (some (.low erc (R er)))) := by
  rw [load, h]

theorem Cache.load_snd (R : RegFile) (cur : Cache) (er er' : EcvReg) (erc : ERC) :
    (Cache.load R cur er erc).2 er' =
      (cur er').or (if er = er' then some (.low erc (R er')) else none) := by
  rcases hcur : cur er with - | v
  · rw [load_of_none hcur]
    by_cases her : er = er'
    · subst her
      rw [hcur, if_pos rfl]
      exact Function.update_self ..
    · rw [if_neg her, Option.or_none]
      exact Function.update_of_ne (Ne.symm her) ..
  · rw [load_of_some hcur]
    by_cases her : er = er'
    · subst her
      rw [hcur]
      exact hcur
    · rw [if_neg her, Option.or_none]

/-- A load gives the register as it reads afterwards. -/
theorem Cache.load_fst (R : RegFile) (cur : Cache) (er : EcvReg) (erc : ERC) :
    (Cache.load R cur er erc).1 = .low erc ((Cache.load R cur er erc).2.regs R er) := by
  rcases hcur : cur er with - | v
  · rw [load_of_none hcur]
    show Value.low erc (R er) = .low erc (Cache.regs R (Function.update cur er _) er)
    rw [regs_of_some (Function.update_self ..), Value.low_whole]
  · rw [load_of_some hcur]
    show castFromInst v erc = .low erc (Cache.regs R cur er)
    rw [regs_of_some hcur]
    exact castFromInst_of_whole rfl erc

/-- After loads a register has the value it had, or that of its first load. -/
theorem Cache.touch_eq (R : RegFile) (loads : List (EcvReg × ERC)) (er : EcvReg) :
    ∀ cur : Cache, cur.touch R loads er =
      (cur er).or ((firstClass er loads).map fun erc => .low erc (R er)) := by
  induction loads with
  | nil => exact fun cur => (Option.or_none).symm
  | cons a loads ih =>
    intro cur
    show Cache.touch R (Cache.load R cur a.1 a.2).2 loads er = _
    rw [ih, load_snd, Option.or_assoc, firstClass_cons]
    by_cases her : a.1 = er
    · rw [if_pos her, if_pos her]
      rfl
    · rw [if_neg her, if_neg her]
      rfl

theorem Cache.touch_of_some {loads : List (EcvReg × ERC)} (h : cur er = some v) :
    cur.touch R loads er = some v := by
  rw [touch_eq, h]
  rfl

theorem Cache.touch_append (loads loads' : List (EcvReg × ERC)) :
    cur.touch R (loads ++ loads') = (cur.touch R loads).touch R loads' := List.foldl_append

theorem exists_firstClass {loads : List (EcvReg × ERC)} {a : EcvReg × ERC} (h : a ∈ loads) :
    ∃ erc, firstClass a.1 loads = some erc := by
  rcases hfirst : firstClass a.1 loads with - | erc
  · have hnone := List.findSome?_eq_none_iff.mp hfirst a h
    rw [if_pos rfl] at hnone
    exact nomatch hnone
  · exact ⟨erc, rfl⟩

theorem exists_touch {loads : List (EcvReg × ERC)} {a : EcvReg × ERC} (h : a ∈ loads) :
    ∃ v, cur.touch R loads a.1 = some v := by
  obtain ⟨erc, herc⟩ := exists_firstClass h
  rw [Cache.touch_eq, herc]
  rcases cur a.1 with - | v
  · exact ⟨_, rfl⟩
  · exact ⟨v, rfl⟩

/-- After the loads the registers read as in `V`. -/
def Cache.ReadsAs (R : RegFile) (cur : Cache) (V : RegFile) (loads : List (EcvReg × ERC)) : Prop :=
  ∀ a ∈ loads, (cur.touch R loads).regs R a.1 = V a.1

/-- What a register reads as is settled by its first load. -/
theorem Cache.ReadsAs.append {loads loads' : List (EcvReg × ERC)}
    (h : cur.ReadsAs R V (loads ++ loads')) :
    cur.ReadsAs R V loads ∧ (cur.touch R loads).ReadsAs R V loads' := by
  constructor
  · intro a ha
    obtain ⟨v, hv⟩ : ∃ v, cur.touch R loads a.1 = some v := exists_touch ha
    have hboth := h a (List.mem_append_left _ ha)
    rw [touch_append, regs_of_some (touch_of_some hv)] at hboth
    rw [regs_of_some hv, hboth]
  · intro a ha
    rw [← touch_append]
    exact h a (List.mem_append_right _ ha)

end

/-! ### What an instruction does -/

section

variable {R V : RegFile} {cur : Cache}

theorem Cache.LoadRegValue_eq {name : RegName} (h : cur.ReadsAs R V (nameLoads name)) :
    cur.LoadRegValue R name =
      (AArch64.LoadRegValue V name).map fun v => (v, cur.touch R (nameLoads name)) := by
  unfold LoadRegValue AArch64.LoadRegValue
  unfold nameLoads at h ⊢
  by_cases hz : name = .XZR ∨ name = .WZR
  · rw [if_pos hz, if_pos hz, if_pos hz]
    rfl
  · rw [if_neg hz] at h
    rw [if_neg hz, if_neg hz, if_neg hz]
    rcases hinfo : GetRegInfo name with - | p
    · rfl
    · rw [hinfo] at h
      have hp : (Cache.load R cur p.1 p.2).2.regs R p.1 = V p.1 := h p (.head _)
      show some (Cache.load R cur p.1 p.2) = some (Value.low p.2 (V p.1), _)
      rw [← hp, ← load_fst]
      rfl

theorem Cache.liftRegister_eq {name : RegName} (h : cur.ReadsAs R V (nameLoads name)) :
    cur.liftRegister R name =
      (AArch64.liftRegister V name).map fun v => (v, cur.touch R (nameLoads name)) := by
  unfold liftRegister AArch64.liftRegister
  by_cases hx : name = .XZR
  · subst hx
    rfl
  · by_cases hw : name = .WZR
    · subst hw
      rfl
    · rw [if_neg hx, if_neg hx, if_neg hw, if_neg hw, LoadRegValue_eq h]

theorem Cache.liftAddress_eq {base_reg : BitVec 5}
    (h : cur.ReadsAs R V (regLoads .RegX .kUseAsAddress base_reg)) (displacement : BitVec 64) :
    cur.liftAddress R base_reg displacement =
      (AArch64.liftAddress V base_reg displacement).map fun addr =>
        (addr, cur.touch R (regLoads .RegX .kUseAsAddress base_reg)) := by
  unfold liftAddress AArch64.liftAddress
  unfold regLoads at h ⊢
  rcases hname : regNameOf .kActionRead .RegX .kUseAsAddress base_reg.toNat with - | name
  · rfl
  · rw [hname] at h
    show (cur.LoadRegValue R name).bind _ = ((AArch64.LoadRegValue V name).bind _).map _
    rw [LoadRegValue_eq h]
    cases AArch64.LoadRegValue V name <;> rfl

theorem Cache.liftIndex_eq {index_reg : Option (BitVec 5)}
    (h : cur.ReadsAs R V (index_reg.elim [] (regLoads .RegX .kUseAsAddress))) :
    cur.liftIndex R index_reg = (AArch64.liftIndex V index_reg).map fun index =>
      (index, cur.touch R (index_reg.elim [] (regLoads .RegX .kUseAsAddress))) := by
  rcases index_reg with - | index_reg
  · rfl
  · replace h : cur.ReadsAs R V (regLoads .RegX .kUseAsAddress index_reg) := h
    show ((regNameOf .kActionRead .RegX .kUseAsAddress index_reg.toNat).bind fun name =>
      (cur.LoadRegValue R name).bind fun p => some (p.1.bits.setWidth 64 * 1#64, p.2)) =
        Option.map (fun index => (index, cur.touch R (regLoads .RegX .kUseAsAddress index_reg)))
          ((regNameOf .kActionRead .RegX .kUseAsAddress index_reg.toNat).bind fun name =>
            (AArch64.LoadRegValue V name).bind fun v => some (v.bits.setWidth 64 * 1#64))
    unfold regLoads at h ⊢
    rcases hname : regNameOf .kActionRead .RegX .kUseAsAddress index_reg.toNat with - | name
    · rfl
    · rw [hname] at h
      rw [Option.bind_some, Option.bind_some, LoadRegValue_eq h]
      cases AArch64.LoadRegValue V name <;> rfl

theorem Cache.new_addr_eq {u : IndexUpdate} (h : cur.ReadsAs R V u.loads) :
    cur.new_addr R u = (u.new_addr V).map fun addr => (addr, cur.touch R u.loads) := by
  obtain ⟨hbase, hindex⟩ := h.append
  unfold new_addr IndexUpdate.new_addr
  rw [liftAddress_eq hbase]
  rcases AArch64.liftAddress V u.base_reg u.displacement with - | addr
  · rfl
  · show ((cur.touch R _).liftIndex R u.index_reg).bind _ =
      ((AArch64.liftIndex V u.index_reg).bind _).map _
    rw [liftIndex_eq hindex]
    rcases AArch64.liftIndex V u.index_reg with - | index
    · rfl
    · show some (addr + index, (cur.touch R _).touch R _) = some (addr + index, _)
      rw [← touch_append]
      rfl

theorem Cache.args_eq {op : SemaOperand} (h : cur.ReadsAs R V op.loads) :
    cur.args R op = (op.args V).map fun args => (args, cur.touch R op.loads) := by
  -- an operand reads at most one register, through the cache or not
  cases op with
  | reg action rclass rtype reg_num =>
    cases action with
    | kActionWrite => rfl
    | kActionRead | kActionReadWrite =>
      replace h : cur.ReadsAs R V (regLoads rclass rtype reg_num) := h
      show ((regNameOf .kActionRead rclass rtype reg_num.toNat).bind fun name =>
        (cur.liftRegister R name).bind fun p => some ([Arg.value p.1], p.2)) =
          Option.map (fun args => (args, cur.touch R (regLoads rclass rtype reg_num)))
            ((regNameOf .kActionRead rclass rtype reg_num.toNat).bind fun name =>
              (AArch64.liftRegister V name).bind fun v => some [Arg.value v])
      unfold regLoads at h ⊢
      rcases hname : regNameOf .kActionRead rclass rtype reg_num.toNat with - | name
      · rfl
      · rw [hname] at h
        rw [Option.bind_some, Option.bind_some, liftRegister_eq h]
        cases AArch64.liftRegister V name <;> rfl
  | imm val => rfl
  | address base_reg displacement =>
    replace h : cur.ReadsAs R V (regLoads .RegX .kUseAsAddress base_reg) := h
    show (cur.liftAddress R base_reg displacement).bind _ =
      ((AArch64.liftAddress V base_reg displacement).bind _).map _
    rw [liftAddress_eq h]
    cases AArch64.liftAddress V base_reg displacement <;> rfl
  | shiftReg rclass reg_num op =>
    replace h : cur.ReadsAs R V (regLoads rclass .kUseAsValue reg_num) := h
    show ((regNameOf .kActionRead rclass .kUseAsValue reg_num.toNat).bind fun name =>
      (cur.LoadRegValue R name).bind fun p => (liftShiftRegister op p.1).bind fun bits =>
        some ([Arg.word bits], p.2)) =
        Option.map (fun args => (args, cur.touch R (regLoads rclass .kUseAsValue reg_num)))
          ((regNameOf .kActionRead rclass .kUseAsValue reg_num.toNat).bind fun name =>
            (AArch64.LoadRegValue V name).bind fun v => (liftShiftRegister op v).bind fun bits =>
              some [Arg.word bits])
    unfold regLoads at h ⊢
    rcases hname : regNameOf .kActionRead rclass .kUseAsValue reg_num.toNat with - | name
    · rfl
    · rw [hname] at h
      rw [Option.bind_some, Option.bind_some, LoadRegValue_eq h]
      rcases AArch64.LoadRegValue V name with - | v
      · rfl
      · show (liftShiftRegister op v).bind _ = ((liftShiftRegister op v).bind _).map _
        cases liftShiftRegister op v <;> rfl

theorem Cache.argsEach_eq {operands : List SemaOperand} :
    ∀ {cur : Cache}, cur.ReadsAs R V (operands.flatMap SemaOperand.loads) →
      cur.argsEach R operands = (operands.mapM (SemaOperand.args V)).map fun args =>
        (args, cur.touch R (operands.flatMap SemaOperand.loads)) := by
  induction operands with
  | nil => exact fun _ => rfl
  | cons op operands ih =>
    intro cur h
    rw [List.flatMap_cons] at h
    obtain ⟨hop, hrest⟩ := h.append
    rw [List.mapM_cons, List.flatMap_cons, touch_append]
    show (cur.args R op).bind _ = ((op.args V).bind _).map _
    rw [args_eq hop]
    rcases op.args V with - | args
    · rfl
    · show ((cur.touch R op.loads).argsEach R operands).bind _ =
        ((operands.mapM (SemaOperand.args V)).bind _).map _
      rw [ih hrest]
      cases operands.mapM (SemaOperand.args V) <;> rfl

/-- An instruction in a block, by its arguments and results on the registers that it reads. -/
theorem BlockState.exec_eq {s : BlockState} {sema : Sema} {i : SemaInst} {args : List (List Arg)}
    {writes : List (List EcvReg)} {results : List Value} {mem : Memory}
    (h : s.cur.ReadsAs R V (i.operands.flatMap SemaOperand.loads))
    (hargs : i.operands.mapM (SemaOperand.args V) = some args)
    (hwrites : i.operands.mapM SemaOperand.writes = some writes)
    (hcall : sema args.flatten s.mem = some (results, mem))
    (hlen : writes.flatten.length = results.length) :
    s.exec R sema i = BlockState.update R
      ⟨(s.cur.touch R (i.operands.flatMap SemaOperand.loads)).insertEach writes.flatten results,
        mem, storeEach s.regs writes.flatten results⟩ i.write_back := by
  unfold exec
  rw [Cache.argsEach_eq h, hargs, hwrites]
  show (sema args.flatten s.mem).bind _ = _
  rw [hcall]
  exact if_pos hlen

theorem BlockState.update_eq {s : BlockState} {u : IndexUpdate} (hindex : u.index_reg ≠ some 31#5)
    (h : s.cur.ReadsAs R V u.loads) :
    s.update R (some (some u)) = some
      ⟨Function.update (s.cur.touch R u.loads) (baseReg u.base_reg)
          (some ⟨.RegX, Arm.newBase V u⟩), s.mem,
        Arm.setBase s.regs u.base_reg (Arm.newBase V u)⟩ := by
  show ((RegNameXW .kActionWrite .RegX .kUseAsAddress u.base_reg.toNat).bind fun name =>
    (GetRegInfo name).bind fun p => (s.cur.new_addr R u).bind fun q =>
      some { s with
        cur := Function.update q.2 p.1 (some ⟨.RegX, q.1⟩)
        regs := storeResult s.regs p.1 ⟨.RegX, q.1⟩ }) = _
  rw [Cache.new_addr_eq h, AArch64.new_addr_eq V hindex]
  generalize Arm.newBase V u = addr
  generalize s.cur.touch R u.loads = cur
  generalize u.base_reg = n
  unfold Arm.setBase baseReg
  by_cases hn : n = 31#5
  · subst hn
    rfl
  · rw [regNameXW_of_ne (by decide) _ _ hn, if_neg hn, if_neg hn]
    rfl

end

end Elfconv.AArch64
