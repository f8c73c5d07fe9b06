/-
Elfconv/Semantics/IndexedBlock.lean

Pre- and post-indexed loads and stores in the blocks of an optimised function.

The write-back re-reads the base and the index from the map and puts the sum there; the results of
the load, if any, are in it already.  `step_indexed` gives one instruction on the registers as they
read after its loads.  These may have lost bits: a register that no instruction of the block has
written reads by the class of its first load.  The bits that an instruction needs of each register
are its `needs`, and `indexed_exact_iff` says that they are all that counts.
-/
import Elfconv.Semantics.IndexedArm

namespace Elfconv.AArch64

open ByteMemory

/-! ### What an instruction reads and writes -/

namespace Arm.Transfer

/-- The registers that are stored to memory. -/
def stored : Transfer → List EcvReg
  | storeX _ Rts => (Rts.filter (· ≠ 31#5)).map fun r => ⟨.General, r.toNat⟩
  | storeV _ Rts => Rts.map fun r => ⟨.Vector, r.toNat⟩
  | storeElem _ _ Rt => [⟨.Vector, Rt.toNat⟩]
  | loadX _ _ _ | loadV _ _ => []

/-- How many of their low bits are needed. -/
def storedBits : Transfer → ℕ
  | storeX n _ | storeV n _ => n * 8
  | storeElem n index _ => (index + 1) * (n * 8)
  | loadX _ _ _ | loadV _ _ => 0

/-- The registers that are loaded from memory. -/
def loaded : Transfer → List EcvReg
  | loadX _ _ Rts => Rts.map destX
  | loadV _ Rts => Rts.map fun r => ⟨.Vector, r.toNat⟩
  | storeX _ _ | storeV _ _ | storeElem _ _ _ => []

end Arm.Transfer

namespace Indexed

/-- The index register, as it is kept. -/
def indexRegs (i : Indexed) : List EcvReg := i.index_reg.toList.map fun m => ⟨.General, m.toNat⟩

/-- The registers that the new base comes from, with how many of their low bits. -/
def addrNeeds (i : Indexed) : List (EcvReg × ℕ) :=
  (baseReg (Arm.Rn i), 64) :: i.indexRegs.map fun er => (er, 64)

/-- The registers whose values an instruction needs. -/
def needs (i : Indexed) : List (EcvReg × ℕ) :=
  i.addrNeeds ++ (Arm.transfer i).stored.map fun er => (er, (Arm.transfer i).storedBits)

/-- The registers that an instruction leaves with new values. -/
def updates (i : Indexed) : List EcvReg := baseReg (Arm.Rn i) :: (Arm.transfer i).loaded

end Indexed

/-- The registers that an instruction with a write-back loads. -/
def SemaInst.loads (i : SemaInst) : List (EcvReg × ERC) :=
  i.operands.flatMap SemaOperand.loads ++ (i.write_back.bind id).elim [] IndexUpdate.loads

/-! ### Blocks -/

/-- Another instruction of the block, by the registers that it reads and writes.  Its results are of
types that `CastFromInst` takes for the registers, whatever the class of the read. -/
structure PlainInst where
  reads : List RegName
  writes : List EcvReg
  sema : List Value → Memory → (ℕ → Value) × Memory
  casts : ∀ args mem i er erc, writes[i]? = some er → er.number ≠ IGNORE_WRITE_TO_XZR_ORDER →
    er.reg_kind.allows erc = true ∨ erc = wholeERC er →
      castChecks er ((sema args mem).1 i).erc erc = true

namespace PlainInst

/-- The loads of its operands, by their names. -/
def loads (p : PlainInst) : List (EcvReg × ERC) := p.reads.flatMap nameLoads

end PlainInst

/-- The values of loads, one after the other. -/
def Cache.loadEach (R : RegFile) (cur : Cache) : List (EcvReg × ERC) → List Value × Cache
  | [] => ([], cur)
  | a :: loads =>
      let (v, cur) := Cache.load R cur a.1 a.2
      let (vs, cur) := Cache.loadEach R cur loads
      (v :: vs, cur)

/-- The results go to the map. -/
def PlainInst.exec (R : RegFile) (p : PlainInst) (s : BlockState) : BlockState :=
  let (args, cur) := s.cur.loadEach R p.loads
  let (sema, mem) := p.sema args s.mem
  let results := (List.range p.writes.length).map sema
  ⟨cur.insertEach p.writes results, mem, storeEach s.regs p.writes results⟩

/-- An access with a write-back, or another instruction. -/
inductive BlockItem (x86_64 : Bool)
  | indexed (i : IndexedInst x86_64)
  | plain (p : PlainInst)

variable {x86_64 : Bool}

namespace BlockItem

/-- The loads that lifting it emits. -/
def loads : BlockItem x86_64 → List (EcvReg × ERC)
  | indexed i => i.inst.loads
  | plain p => p.loads

/-- The registers that it writes. -/
def updates : BlockItem x86_64 → List EcvReg
  | indexed i => i.access.updates
  | plain p => p.writes

/-- The item on the state of the block; nothing where the lifter ends. -/
def step (R : RegFile) (s : BlockState) : BlockItem x86_64 → Option BlockState
  | indexed i => s.exec R (i.access.isel x86_64) i.inst
  | plain p => some (p.exec R s)

end BlockItem

/-- The point of a block behind some of its instructions. -/
def BlockState.run (R : RegFile) (s : BlockState) (items : List (BlockItem x86_64)) :
    Option BlockState := items.foldlM (BlockItem.step R) s

/-- The instruction leaves what the architecture leaves, and every register that it updates reads as
that, by whatever class it has, until another instruction writes it. -/
def IndexedInst.ExactAt (i : IndexedInst x86_64) (R : RegFile) (s : BlockState)
    (rest : List (BlockItem x86_64)) : Prop :=
  ∃ s', BlockItem.step R s (.indexed i) = some s' ∧
    s'.guest = Arm.execIndexed i.access s.guest ∧
    ∀ mid after, rest = mid ++ after → ∀ s'', s'.run R mid = some s'' →
      ∀ er ∈ i.access.updates, er.number ≠ IGNORE_WRITE_TO_XZR_ORDER →
        er ∉ mid.flatMap BlockItem.updates →
          ∀ erc, ERCSize erc ≤ ERCSize (wholeERC er) →
            (Cache.load R s''.cur er erc).1 = .low erc (s'.regs er)

/-- Every pre- and post-indexed instruction of the block is exact, from every state at its start. -/
def ExactIndexed (drvd : EcvReg → Option ERC) (block : List (BlockItem x86_64)) : Prop :=
  ∀ g done i rest, block = done ++ .indexed i :: rest →
    ∃ s, (BlockState.start drvd g).run g.regs done = some s ∧ i.ExactAt g.regs s rest

/-- The class of the first value of a register in the block, from its phi node or a load. -/
def firstERC (drvd : EcvReg → Option ERC) (done : List (BlockItem x86_64)) (er : EcvReg) :
    Option ERC := (drvd er).or (firstClass er (done.flatMap BlockItem.loads))

/-- A register that is needed, and not written before, has a first value that is wide enough. -/
def NeedsWide (drvd : EcvReg → Option ERC) (block : List (BlockItem x86_64)) : Prop :=
  ∀ done i rest, block = done ++ .indexed i :: rest → ∀ p ∈ i.access.needs,
    p.1 ∉ done.flatMap BlockItem.updates → ∀ erc, firstERC drvd done p.1 = some erc →
      p.2 ≤ ERCSize erc

/-! ### Results in the map -/

/-- A value of the map holds what a register does. -/
def Holds (v : Value) (er : EcvReg) (reg : BitVec 128) : Prop :=
  v.bits.setWidth (ERCSize (wholeERC er)) = reg.setWidth (ERCSize (wholeERC er))

section

variable {R : RegFile} {cur : Cache} {er : EcvReg} {erc : ERC} {v : Value} {reg : BitVec 128}

theorem Holds.cast (h : Holds v er reg) (herc : ERCSize erc ≤ ERCSize (wholeERC er)) :
    castFromInst v erc = .low erc reg := by
  have hbits := congrArg (BitVec.setWidth (ERCSize erc)) h
  rw [BitVec.setWidth_setWidth_of_le _ herc, BitVec.setWidth_setWidth_of_le _ herc] at hbits
  rw [castFromInst_eq, hbits]
  rfl

theorem holds_storeResult (R : RegFile) (er : EcvReg) (v : Value) :
    Holds v er (storeResult R er v er) := by
  unfold Holds storeResult
  rw [Function.update_self, castFromInst_eq]
  show _ = ((v.bits.setWidth _).setWidth 128).setWidth _
  rw [BitVec.setWidth_setWidth_of_le _ (ERCSize_le _), BitVec.setWidth_eq]

theorem insertEach_of_notMem {ers : List EcvReg} : ∀ {vs : List Value} {cur : Cache},
    er ∉ ers → cur.insertEach ers vs er = cur er := by
  induction ers with
  | nil => exact fun _ => rfl
  | cons e ers ih =>
    intro vs cur h
    obtain ⟨hne, hmem⟩ := not_or.mp (mt List.mem_cons.mpr h)
    rcases vs with - | ⟨v, vs⟩
    · rfl
    · show Cache.insertEach (Function.update cur e (some v)) ers vs er = _
      rw [ih hmem, Function.update_of_ne hne]

theorem storeEach_of_notMem {ers : List EcvReg} : ∀ {vs : List Value} {R : RegFile},
    er ∉ ers → storeEach R ers vs er = R er := by
  induction ers with
  | nil => exact fun _ => rfl
  | cons e ers ih =>
    intro vs R h
    obtain ⟨hne, hmem⟩ := not_or.mp (mt List.mem_cons.mpr h)
    rcases vs with - | ⟨v, vs⟩
    · rfl
    · show storeEach (if e.number = IGNORE_WRITE_TO_XZR_ORDER then R else storeResult R e v)
        ers vs er = _
      rw [ih hmem]
      by_cases he : e.number = IGNORE_WRITE_TO_XZR_ORDER
      · rw [if_pos he]
      · rw [if_neg he, storeResult, Function.update_of_ne hne]

/-- A result is in the map as the register would hold it. -/
theorem holds_insertEach {ers : List EcvReg} (her : er.number ≠ IGNORE_WRITE_TO_XZR_ORDER) :
    ∀ {vs : List Value} {cur : Cache} {R : RegFile}, ers.length = vs.length → er ∈ ers →
      ∃ v, cur.insertEach ers vs er = some v ∧ Holds v er (storeEach R ers vs er) := by
  induction ers with
  | nil => exact nofun
  | cons e ers ih =>
    intro vs cur R hlen hmem
    rcases vs with - | ⟨v, vs⟩
    · exact nomatch hlen
    · by_cases hlater : er ∈ ers
      · exact ih (Nat.succ.inj hlen) hlater
      · obtain rfl : er = e := (List.mem_cons.mp hmem).resolve_right hlater
        refine ⟨v, ?_, ?_⟩
        · show Cache.insertEach (Function.update cur er (some v)) ers vs er = _
          rw [insertEach_of_notMem hlater, Function.update_self]
        · show Holds v er (storeEach (if er.number = IGNORE_WRITE_TO_XZR_ORDER then R
            else storeResult R er v) ers vs er)
          rw [storeEach_of_notMem hlater, if_neg her]
          exact holds_storeResult R er v

theorem loadEach_snd (loads : List (EcvReg × ERC)) :
    ∀ cur : Cache, (cur.loadEach R loads).2 = cur.touch R loads := by
  induction loads with
  | nil => exact fun _ => rfl
  | cons a loads ih => exact fun cur => ih _

end

/-! ### The loads of an instruction -/

theorem regLoads_base (n : BitVec 5) :
    regLoads .RegX .kUseAsAddress n = [(baseReg n, .RegX)] := by
  unfold regLoads baseReg
  by_cases hn : n = 31#5
  · subst hn
    rfl
  · show (RegNameXW .kActionRead .RegX .kUseAsAddress n.toNat).elim [] nameLoads = _
    rw [regNameXW_of_ne (by decide) _ _ hn, if_neg hn]
    rfl

/-- A load is of a register that is stored to memory, by a class as wide as what is stored. -/
def Arm.Transfer.LoadsStored (t : Transfer) (a : EcvReg × ERC) : Prop :=
  a.1 ∈ t.stored ∧ t.storedBits ≤ ERCSize a.2

section

variable {n : ℕ} {rclass : ERC} {r : BitVec 5} {Rts : List (BitVec 5)}

theorem loadsStored_X (h : RegKind.General.allows rclass = true) (hn : n * 8 ≤ ERCSize rclass)
    (hr : r ∈ Rts) : ∀ a ∈ (readReg rclass r).loads, (Arm.Transfer.storeX n Rts).LoadsStored a := by
  intro a ha
  have hloads : (readReg rclass r).loads =
      (RegNameXW .kActionRead rclass .kUseAsValue r.toNat).elim [] nameLoads := by
    cases rclass <;> first | exact absurd h (by decide) | rfl
  rw [hloads] at ha
  by_cases h31 : r = 31#5
  · subst h31
    exfalso
    cases rclass <;> first | exact absurd h (by decide) | exact nomatch ha
  · have hinfo : a = (⟨.General, r.toNat⟩, rclass) := by
      rw [regNameXW_of_ne (by decide) _ _ h31] at ha
      cases rclass <;> first | exact absurd h (by decide) | exact List.mem_singleton.mp ha
    subst hinfo
    exact ⟨List.mem_map.mpr ⟨r, List.mem_filter.mpr ⟨hr, decide_eq_true h31⟩, rfl⟩, hn⟩

theorem loads_readReg_V (h : RegKind.Vector.allows rclass = true) :
    (readReg rclass r).loads = [(⟨.Vector, r.toNat⟩, rclass)] := by
  show (regNameOf .kActionRead rclass .kUseAsValue r.toNat).elim [] nameLoads = _
  rw [regNameOf_V r (by decide) h]
  rfl

theorem loadsStored_V (h : RegKind.Vector.allows rclass = true) (hn : n * 8 ≤ ERCSize rclass)
    (hr : r ∈ Rts) : ∀ a ∈ (readReg rclass r).loads, (Arm.Transfer.storeV n Rts).LoadsStored a := by
  intro a ha
  rw [loads_readReg_V h] at ha
  obtain rfl := List.mem_singleton.mp ha
  exact ⟨List.mem_map.mpr ⟨r, hr, rfl⟩, hn⟩

theorem loads_AddIndexMemOp {P : EcvReg × ERC → Prop} {operands : List SemaOperand}
    {base_reg : BitVec 5} {disp : BitVec 64} {dest_regs : List (BitVec 5)} {m : Index}
    (hops : ∀ op ∈ operands, ∀ a ∈ op.loads, P a) :
    ∀ a ∈ (AddIndexMemOp operands base_reg disp dest_regs m).operands.flatMap SemaOperand.loads,
      a = (baseReg base_reg, .RegX) ∨ P a := by
  intro a ha
  obtain ⟨op, hop, ha⟩ := List.mem_flatMap.mp ha
  have hmem : op ∈ operands ∨ ∃ d, op = .address base_reg d := by
    cases m with
    | PRE | POST => exact (List.mem_append.mp hop).imp_right fun h => ⟨_, List.mem_singleton.mp h⟩
  rcases hmem with hmem | ⟨d, rfl⟩
  · exact .inr (hops op hmem a ha)
  · left
    replace ha : a ∈ regLoads .RegX .kUseAsAddress base_reg := ha
    rw [regLoads_base] at ha
    exact List.mem_singleton.mp ha

end

namespace Indexed

variable {inst : SemaInst}

theorem mul_elem_le (e : StructElem) (d : StructFields) :
    (Arm.elemIndex d e + 1) * (e.bytes * 8) ≤ 128 := by
  have hall : ∀ e : StructElem, ∀ Q S : BitVec 1, ∀ size : BitVec 2,
      (Arm.elemIndex (StructFields.mk Q S size 0#5 0#5) e + 1) * (e.bytes * 8) ≤ 128 := by
    intro e
    cases e <;> decide
  have h := hall e d.Q d.S d.size
  cases e <;> exact h

theorem loadsStored_elem (e : StructElem) (d : StructFields) :
    ∀ a ∈ (readReg e.rclass d.Rt).loads,
      (Arm.Transfer.storeElem e.bytes (Arm.elemIndex d e) d.Rt).LoadsStored a := by
  intro a ha
  have hvector : RegKind.Vector.allows e.rclass = true := by cases e <;> rfl
  have hsize : ERCSize e.rclass = 128 := by cases e <;> rfl
  rw [loads_readReg_V hvector] at ha
  obtain rfl := List.mem_singleton.mp ha
  exact ⟨.head _, (mul_elem_le e d).trans hsize.ge⟩

/-- The operands load the base, and what is stored by classes that are wide enough. -/
theorem loads_operands (i : Indexed) (hi : i.Supported x86_64)
    (h : i.TryDecode x86_64 = some inst) :
    ∀ a ∈ inst.operands.flatMap SemaOperand.loads,
      a = (baseReg (Arm.Rn i), .RegX) ∨ (Arm.transfer i).LoadsStored a := by
  have hpair : ∀ {t : Arm.Transfer} {op op' : SemaOperand}, (∀ a ∈ op.loads, t.LoadsStored a) →
      (∀ a ∈ op'.loads, t.LoadsStored a) → ∀ o ∈ [op, op'], ∀ a ∈ o.loads, t.LoadsStored a := by
    intro t op op' h h' o ho
    rcases List.mem_pair.mp ho with rfl | rfl
    · exact h
    · exact h'
  have hone : ∀ {t : Arm.Transfer} {op : SemaOperand}, (∀ a ∈ op.loads, t.LoadsStored a) →
      ∀ o ∈ [op], ∀ a ∈ o.loads, t.LoadsStored a := by
    intro t op h o ho
    obtain rfl := List.mem_singleton.mp ho
    exact h
  -- one case for each decoder: a store reads the registers it stores, a load none
  cases i with
  | STP i m d =>
    cases h
    cases i with
    | STP_32 =>
      exact loads_AddIndexMemOp (hpair (loadsStored_X rfl (le_refl 32) (.head _))
        (loadsStored_X rfl (le_refl 32) (.tail _ (.head _))))
    | STP_64 =>
      exact loads_AddIndexMemOp (hpair (loadsStored_X rfl (le_refl 64) (.head _))
        (loadsStored_X rfl (le_refl 64) (.tail _ (.head _))))
    | STP_S =>
      exact loads_AddIndexMemOp (hpair (loadsStored_V rfl (le_refl 32) (.head _))
        (loadsStored_V rfl (le_refl 32) (.tail _ (.head _))))
    | STP_D =>
      exact loads_AddIndexMemOp (hpair (loadsStored_V rfl (le_refl 64) (.head _))
        (loadsStored_V rfl (le_refl 64) (.tail _ (.head _))))
    | STP_Q =>
      cases hi
      exact loads_AddIndexMemOp (hpair (loadsStored_V rfl (le_refl 128) (.head _))
        (loadsStored_V rfl (le_refl 128) (.tail _ (.head _))))
  | LDP i m d =>
    obtain ⟨-, h⟩ := option_ite h
    cases h
    exact loads_AddIndexMemOp (hpair nofun nofun)
  | STR i m d =>
    cases h
    refine loads_AddIndexMemOp (hone ?_)
    cases i with
    | STR_32 => exact loadsStored_X rfl (le_refl 32) (.head _)
    | STR_64 => exact loadsStored_X rfl (le_refl 64) (.head _)
    | STR_B => exact loadsStored_V rfl (le_refl 8) (.head _)
    | STR_H => exact loadsStored_V rfl (le_refl 16) (.head _)
    | STR_S => exact loadsStored_V rfl (le_refl 32) (.head _)
    | STR_D => exact loadsStored_V rfl (le_refl 64) (.head _)
    | STR_Q =>
      exact loadsStored_V (by cases x86_64 <;> rfl)
        (by cases x86_64 <;> exact le_refl 128) (.head _)
    | STRB_32 => exact loadsStored_X rfl (by decide : 8 ≤ 32) (.head _)
    | STRH_32 => exact loadsStored_X rfl (by decide : 16 ≤ 32) (.head _)
  | LDR i m d =>
    cases h
    exact loads_AddIndexMemOp (hone nofun)
  | ST1_ASISDLSEP_I2_I2 d => exact False.elim hi
  | LD1_ASISDLSEP_I1_I1 d =>
    obtain ⟨rclass, -, h⟩ := Option.bind_eq_some_iff.mp h
    cases h
    exact loads_AddIndexMemOp (hone nofun)
  | ST1_ASISDLSOP_I e d =>
    cases h
    exact loads_AddIndexMemOp (hpair (loadsStored_elem e d) nofun)
  | ST1_ASISDLSOP_R e d Rm hm =>
    cases h
    show ∀ a ∈ (AddIndexMemOp [readReg e.rclass d.Rt, .imm (d.index e)] d.Rn 0#64 []
      .POST).operands.flatMap SemaOperand.loads, _
    exact loads_AddIndexMemOp (hpair (loadsStored_elem e d) nofun)

theorem loads_update {i : Indexed} {u : IndexUpdate} (hu : i.WritesBack inst u) :
    ∀ a ∈ u.loads, a = (baseReg (Arm.Rn i), .RegX) ∨ (a.1 ∈ i.indexRegs ∧ a.2 = .RegX) := by
  intro a ha
  rcases List.mem_append.mp ha with ha | ha
  · rw [hu.base_reg, regLoads_base] at ha
    exact .inl (List.mem_singleton.mp ha)
  · right
    rw [hu.index_reg] at ha
    rcases hm : i.index_reg with - | m
    · rw [hm] at ha
      exact nomatch ha
    · have hne : m ≠ 31#5 := fun h31 => i.index_reg_ne (hm.trans (congrArg some h31))
      rw [hm] at ha
      replace ha : a ∈ regLoads .RegX .kUseAsAddress m := ha
      rw [regLoads_base, baseReg, if_neg hne] at ha
      obtain rfl := List.mem_singleton.mp ha
      unfold indexRegs
      rw [hm]
      exact ⟨.head _, rfl⟩

theorem loads_eq {i : Indexed} {u : IndexUpdate} (hu : i.WritesBack inst u) :
    inst.loads = inst.operands.flatMap SemaOperand.loads ++ u.loads := by
  unfold SemaInst.loads
  rw [hu.write_back]
  rfl

/-- All that is loaded, the index of the write-back with it. -/
theorem loads_inst (i : Indexed) (hi : i.Supported x86_64) (h : i.TryDecode x86_64 = some inst)
    (hspares : (Arm.transfer i).Spares (Arm.Rn i)) :
    ∀ a ∈ inst.loads, a = (baseReg (Arm.Rn i), .RegX) ∨ (a.1 ∈ i.indexRegs ∧ a.2 = .RegX) ∨
      (Arm.transfer i).LoadsStored a := by
  intro a ha
  obtain ⟨u, hu⟩ := i.writesBack h hspares
  rw [loads_eq hu] at ha
  rcases List.mem_append.mp ha with ha | ha
  · exact (loads_operands i hi h a ha).imp_right .inr
  · exact (loads_update hu a ha).imp_right .inl

theorem base_notMem_stored (i : Indexed) (hspares : (Arm.transfer i).Spares (Arm.Rn i)) :
    baseReg (Arm.Rn i) ∉ (Arm.transfer i).stored := by
  generalize Arm.Rn i = Rn at hspares ⊢
  generalize Arm.transfer i = t at hspares ⊢
  intro hmem
  cases t with
  | storeX n Rts =>
    obtain ⟨r, hr, heq⟩ := List.mem_map.mp hmem
    refine baseReg_ne_general (hspares.imp_right fun h heq => h ?_) heq.symm
    rw [heq]
    exact (List.mem_filter.mp hr).1
  | storeV n Rts =>
    obtain ⟨r, -, heq⟩ := List.mem_map.mp hmem
    exact baseReg_ne_vector Rn _ heq.symm
  | storeElem n index Rt => exact baseReg_ne_vector Rn _ (List.mem_singleton.mp hmem)
  | loadX | loadV => exact nomatch hmem

theorem base_notMem_loaded (i : Indexed) (hspares : (Arm.transfer i).Spares (Arm.Rn i)) :
    baseReg (Arm.Rn i) ∉ (Arm.transfer i).loaded := by
  generalize Arm.Rn i = Rn at hspares ⊢
  generalize Arm.transfer i = t at hspares ⊢
  intro hmem
  cases t with
  | storeX | storeV | storeElem => exact nomatch hmem
  | loadX n extend Rts =>
    obtain ⟨r, hr, heq⟩ := List.mem_map.mp hmem
    unfold destX at heq
    by_cases h31 : r = 31#5
    · rw [if_pos h31] at heq
      unfold baseReg at heq
      by_cases hn : Rn = 31#5
      · rw [if_pos hn] at heq
        exact absurd heq (by decide)
      · rw [if_neg hn] at heq
        exact nomatch (congrArg EcvReg.reg_kind heq : RegKind.Special = RegKind.General)
    · rw [if_neg h31] at heq
      refine baseReg_ne_general (hspares.imp_right fun h heq => h ?_) heq.symm
      rw [heq]
      exact hr
  | loadV n Rts =>
    obtain ⟨r, -, heq⟩ := List.mem_map.mp hmem
    exact baseReg_ne_vector Rn _ heq.symm

/-- An index goes with a store of a vector element. -/
theorem index_notMem (i : Indexed) : ∀ er ∈ i.indexRegs,
    er ∉ (Arm.transfer i).stored ∧ er ∉ (Arm.transfer i).loaded := by
  intro er her
  cases i with
  | ST1_ASISDLSOP_R e d Rm hm =>
    obtain rfl := List.mem_singleton.mp her
    refine ⟨fun hmem => ?_, nofun⟩
    exact nomatch (congrArg EcvReg.reg_kind (List.mem_singleton.mp hmem) :
      RegKind.General = RegKind.Vector)
  | STP | LDP | STR | LDR | ST1_ASISDLSEP_I2_I2 | LD1_ASISDLSEP_I1_I1 | ST1_ASISDLSOP_I =>
    exact nomatch her

/-- An instruction loads what it needs by classes that are wide enough. -/
theorem needs_le_loads (i : Indexed) (hi : i.Supported x86_64)
    (h : i.TryDecode x86_64 = some inst) (hspares : (Arm.transfer i).Spares (Arm.Rn i)) :
    ∀ p ∈ i.needs, ∀ a ∈ inst.loads, a.1 = p.1 → p.2 ≤ ERCSize a.2 := by
  intro p hp a ha heq
  have hbase := i.base_notMem_stored hspares
  rcases List.mem_append.mp hp with hp | hp
  · -- the base and the index
    have h64 : p.2 = 64 ∧ p.1 ∉ (Arm.transfer i).stored := by
      rcases List.mem_cons.mp hp with rfl | hp
      · exact ⟨rfl, hbase⟩
      · obtain ⟨er, her, rfl⟩ := List.mem_map.mp hp
        exact ⟨rfl, (i.index_notMem er her).1⟩
    rcases i.loads_inst hi h hspares a ha with rfl | ⟨-, hx⟩ | ⟨hmem, -⟩
    · exact h64.1.le
    · rw [hx]
      exact h64.1.le
    · exact absurd (heq ▸ hmem) h64.2
  · obtain ⟨er, her, rfl⟩ := List.mem_map.mp hp
    replace heq : a.1 = er := heq
    rw [← heq] at her
    rcases i.loads_inst hi h hspares a ha with rfl | ⟨hmem, -⟩ | ⟨-, hle⟩
    · exact absurd her hbase
    · exact absurd her (i.index_notMem a.1 hmem).1
    · exact hle

end Indexed

end Elfconv.AArch64
