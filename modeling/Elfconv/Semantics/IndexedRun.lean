/-
Elfconv/Semantics/IndexedRun.lean

Pre- and post-indexed loads and stores in a run of a block.

One step of a block changes a register that it updates, to a value of the map that holds the same,
and leaves the others as its loads leave them (`Effect`).  So a register that no instruction has
written keeps its value from the start of the block, in the map by the class of its first load
(`BlockInv`), and an instruction whose needs are wide enough computes with the right bits.
-/
import Elfconv.Semantics.IndexedBlock

namespace Elfconv.AArch64

open ByteMemory

variable {x86_64 : Bool}

/-! ### One step -/

/-- What a step of a block does to the map and to the registers. -/
structure Effect (R : RegFile) (loads : List (EcvReg × ERC)) (updates : List EcvReg)
    (s s' : BlockState) : Prop where
  kept : ∀ er, er ∉ updates → s'.cur er = s.cur.touch R loads er ∧ s'.regs er = s.regs er
  updated : ∀ er, er.number ≠ IGNORE_WRITE_TO_XZR_ORDER → er ∈ updates →
    ∃ v, s'.cur er = some v ∧ Holds v er (s'.regs er)

theorem effect_plain (R : RegFile) (p : PlainInst) (s : BlockState) :
    Effect R p.loads p.writes s (p.exec R s) := by
  have hlen : ∀ f : ℕ → Value, p.writes.length = ((List.range p.writes.length).map f).length := by
    intro f
    rw [List.length_map, List.length_range]
  constructor
  · intro er her
    refine ⟨?_, storeEach_of_notMem her⟩
    rw [← loadEach_snd]
    exact insertEach_of_notMem her
  · exact fun er hnum her => holds_insertEach hnum (hlen _) her

theorem Arm.Transfer.Moves.writes_eq {t : Transfer} {addr : BitVec 64} {R : RegFile}
    {mem mem' : Memory} {writes : List EcvReg} {results : List Value}
    (h : t.Moves addr R mem writes results mem') : writes = t.loaded := by
  cases t <;> exact h.1

theorem ERCSize_base (n : BitVec 5) : ERCSize (wholeERC (baseReg n)) = 64 := by
  unfold baseReg
  by_cases h : n = 31#5
  · rw [if_pos h]
    rfl
  · rw [if_neg h]
    rfl

theorem holds_base (n : BitVec 5) (x : BitVec 64) :
    Holds ⟨.RegX, x⟩ (baseReg n) (x.setWidth 128) := by
  show x.setWidth _ = (x.setWidth 128).setWidth _
  rw [BitVec.setWidth_setWidth (by omega)]

/-- An instruction with a write-back, on the registers as they read after its loads. -/
theorem step_indexed (i : IndexedInst x86_64) (hi : i.access.Supported x86_64) (R : RegFile)
    (s : BlockState) :
    let V := (s.cur.touch R i.inst.loads).regs R
    let t := Arm.transfer i.access
    ∃ cur : Cache, ∃ s' : BlockState, s' = ⟨cur, (t.exec (i.access.addr V) ⟨V, s.mem⟩).mem,
        Arm.setBase (t.exec (i.access.addr V) ⟨s.regs, s.mem⟩).regs (Arm.Rn i.access)
          (Arm.base V (Arm.Rn i.access) + Arm.indexOffset V i.access)⟩ ∧
      BlockItem.step R s (.indexed i) = some s' ∧
      Effect R i.inst.loads i.access.updates s s' := by
  intro V t
  obtain ⟨writes, results, mem', ⟨args, ws, hargs, hwrites, rfl, hcall⟩, hmoves⟩ :=
    (Indexed.call i.access hi i.decoded : Call i.inst (i.access.isel x86_64) V s.mem _ t)
  obtain ⟨u, hu⟩ := i.access.writesBack i.decoded i.spares
  have hloads := Indexed.loads_eq hu
  have hV : s.cur.ReadsAs R V (i.inst.operands.flatMap SemaOperand.loads ++ u.loads) := by
    intro a _
    rw [← hloads]
  have hloaded : ws.flatten = t.loaded := hmoves.writes_eq
  -- the base and the index are not among the results
  have hnot : ∀ a ∈ u.loads, a.1 ∉ ws.flatten := by
    intro a ha
    rw [hloaded]
    rcases Indexed.loads_update hu a ha with rfl | ⟨hmem, -⟩
    · exact i.access.base_notMem_loaded i.spares
    · exact (i.access.index_notMem a.1 hmem).2
  let cur : Cache := (s.cur.touch R (i.inst.operands.flatMap SemaOperand.loads)).insertEach
    ws.flatten results
  have hcur : ∀ er, er ∉ ws.flatten →
      cur.touch R u.loads er = s.cur.touch R i.inst.loads er := by
    intro er her
    have hkept : cur er = s.cur.touch R (i.inst.operands.flatMap SemaOperand.loads) er :=
      insertEach_of_notMem her
    rw [hloads, Cache.touch_append, Cache.touch_eq R _ _ cur, hkept, ← Cache.touch_eq]
  have hreads : cur.ReadsAs R V u.loads := by
    intro a ha
    show Cache.regs R (cur.touch R u.loads) a.1 = Cache.regs R (s.cur.touch R i.inst.loads) a.1
    unfold Cache.regs
    rw [hcur a.1 (hnot a ha)]
  have hexec := BlockState.exec_eq hV.append.1 hargs hwrites hcall hmoves.length_eq
  have hupdate := BlockState.update_eq (s := ⟨cur, mem', storeEach s.regs ws.flatten results⟩)
    (hu.index_reg ▸ i.access.index_reg_ne) hreads
  rw [hu.newBase, hu.base_reg] at hupdate
  refine ⟨Function.update (cur.touch R u.loads) (baseReg (Arm.Rn i.access))
    (some ⟨.RegX, Arm.base V (Arm.Rn i.access) + Arm.indexOffset V i.access⟩), _, rfl, ?_, ?_⟩
  · show s.exec R (i.access.isel x86_64) i.inst = _
    rw [hexec, hu.write_back, hupdate, hmoves.mem_eq, hmoves.storeEach_eq s.regs]
  · rw [← hmoves.storeEach_eq s.regs, Arm.setBase_eq]
    constructor
    · intro er her
      obtain ⟨hbase, hmem⟩ := not_or.mp (mt List.mem_cons.mpr her)
      rw [← hloaded] at hmem
      refine ⟨?_, ?_⟩
      · show Function.update (cur.touch R u.loads) _ _ er = _
        rw [Function.update_of_ne hbase, hcur er hmem]
      · show Function.update (storeEach s.regs ws.flatten results) _ _ er = _
        rw [Function.update_of_ne hbase, storeEach_of_notMem hmem]
    · intro er hnum her
      by_cases hbase : er = baseReg (Arm.Rn i.access)
      · subst hbase
        refine ⟨_, Function.update_self .., ?_⟩
        show Holds _ _ (Function.update (storeEach s.regs ws.flatten results) _ _ _)
        rw [Function.update_self]
        exact holds_base _ _
      · have hmem : er ∈ ws.flatten := hloaded ▸ (List.mem_cons.mp her).resolve_left hbase
        obtain ⟨v, hv, hholds⟩ : ∃ v, cur er = some v ∧
            Holds v er (storeEach s.regs ws.flatten results er) :=
          holds_insertEach hnum hmoves.length_eq hmem
        refine ⟨v, ?_, ?_⟩
        · show Function.update (cur.touch R u.loads) _ _ er = _
          rw [Function.update_of_ne hbase, Cache.touch_of_some hv]
        · show Holds v er (Function.update (storeEach s.regs ws.flatten results) _ _ er)
          rw [Function.update_of_ne hbase]
          exact hholds

/-- The instruction has a write-back, and then its operands and its function are right. -/
def BlockItem.Supported : BlockItem x86_64 → Prop
  | indexed i => i.access.Supported x86_64
  | plain _ => True

theorem step_effect {R : RegFile} {item : BlockItem x86_64} (hi : item.Supported) (s : BlockState) :
    ∃ s', item.step R s = some s' ∧ Effect R item.loads item.updates s s' := by
  cases item with
  | indexed i =>
    obtain ⟨-, s', -, hstep, heffect⟩ := step_indexed i hi R s
    exact ⟨s', hstep, heffect⟩
  | plain p => exact ⟨_, rfl, effect_plain R p s⟩

/-! ### Runs -/

/-- The point of a block behind `done`, with the registers `R` at the start. -/
structure BlockInv (drvd : EcvReg → Option ERC) (R : RegFile) (done : List (BlockItem x86_64))
    (s : BlockState) : Prop where
  kept : ∀ er, er ∉ done.flatMap BlockItem.updates → s.regs er = R er ∧
    s.cur er = (firstERC drvd done er).map fun erc => .low erc (R er)
  updated : ∀ er, er.number ≠ IGNORE_WRITE_TO_XZR_ORDER → er ∈ done.flatMap BlockItem.updates →
    ∃ v, s.cur er = some v ∧ Holds v er (s.regs er)

section

variable {drvd : EcvReg → Option ERC} {R : RegFile} {done : List (BlockItem x86_64)}
  {item : BlockItem x86_64} {s s' : BlockState}

theorem firstERC_append (er : EcvReg) : firstERC drvd (done ++ [item]) er =
    (firstERC drvd done er).or (firstClass er item.loads) := by
  unfold firstERC firstClass
  rw [List.flatMap_append, List.findSome?_append, ← Option.or_assoc, List.flatMap_singleton]

theorem BlockInv.step (h : BlockInv drvd R done s) (he : Effect R item.loads item.updates s s') :
    BlockInv drvd R (done ++ [item]) s' := by
  have hmem : ∀ er, er ∈ (done ++ [item]).flatMap BlockItem.updates ↔
      er ∈ done.flatMap BlockItem.updates ∨ er ∈ item.updates := by
    intro er
    rw [List.flatMap_append, List.flatMap_singleton, List.mem_append]
  constructor
  · intro er her
    obtain ⟨hdone, hitem⟩ := not_or.mp (mt (hmem er).mpr her)
    obtain ⟨hregs, hcur⟩ := h.kept er hdone
    obtain ⟨hcur', hregs'⟩ := he.kept er hitem
    refine ⟨hregs'.trans hregs, ?_⟩
    rw [hcur', Cache.touch_eq, hcur, firstERC_append]
    cases firstERC drvd done er <;> rfl
  · intro er hnum her
    by_cases hitem : er ∈ item.updates
    · exact he.updated er hnum hitem
    · obtain ⟨v, hv, hholds⟩ := h.updated er hnum (((hmem er).mp her).resolve_right hitem)
      obtain ⟨hcur', hregs'⟩ := he.kept er hitem
      refine ⟨v, ?_, ?_⟩
      · rw [hcur', Cache.touch_of_some hv]
      · rw [hregs']
        exact hholds

theorem run_append (items : List (BlockItem x86_64)) (s : BlockState) :
    s.run R (items ++ [item]) = (s.run R items).bind fun s => item.step R s := by
  unfold BlockState.run
  rw [List.foldlM_append]
  cases items.foldlM (BlockItem.step R) s with
  | none => rfl
  | some s' =>
    show (item.step R s').bind _ = item.step R s'
    cases item.step R s' <;> rfl

/-- A run gets behind every instruction. -/
theorem exists_run (drvd : EcvReg → Option ERC) (g : Guest) (done : List (BlockItem x86_64)) :
    (∀ item ∈ done, item.Supported) →
      ∃ s, (BlockState.start drvd g).run g.regs done = some s ∧ BlockInv drvd g.regs done s := by
  induction done using List.reverseRecOn with
  | nil =>
    refine fun _ => ⟨_, rfl, ?_, nofun⟩
    intro er _
    refine ⟨rfl, ?_⟩
    show (drvd er).map _ = ((drvd er).or none).map _
    rw [Option.or_none]
  | append_singleton done item ih =>
    intro h
    obtain ⟨s, hrun, hinv⟩ := ih fun i hi => h i (List.mem_append_left _ hi)
    obtain ⟨s', hstep, heffect⟩ := step_effect (h item (List.mem_append_right _ (.head _))) s
    refine ⟨s', ?_, hinv.step heffect⟩
    rw [run_append, hrun]
    exact hstep

/-- A value in the map stays there until its register is written. -/
theorem run_keeps {er : EcvReg} {v : Value} (items : List (BlockItem x86_64)) :
    ∀ s : BlockState, (∀ item ∈ items, item.Supported) → er ∉ items.flatMap BlockItem.updates →
      s.cur er = some v → s.run R items = some s' → s'.cur er = some v := by
  induction items with
  | nil =>
    intro s _ _ hv hrun
    cases hrun
    exact hv
  | cons item items ih =>
    intro s hsup her hv hrun
    rw [List.flatMap_cons] at her
    obtain ⟨hitem, hitems⟩ := not_or.mp (mt List.mem_append.mpr her)
    obtain ⟨s₁, hstep, heffect⟩ := step_effect (R := R) (hsup item (.head _)) s
    have hrest : s₁.run R items = some s' := by
      have hcons : s.run R (item :: items) = (item.step R s).bind fun s => s.run R items := rfl
      rw [hcons, hstep] at hrun
      exact hrun
    refine ih s₁ (fun i hi => hsup i (.tail _ hi)) hitems ?_ hrest
    rw [(heffect.kept er hitem).1, Cache.touch_of_some hv]

end

/-! ### The bits that are needed -/

/-- Two register files have the same bits where they are needed. -/
def Agrees (V G : RegFile) (needs : List (EcvReg × ℕ)) : Prop :=
  ∀ p ∈ needs, (V p.1).setWidth p.2 = (G p.1).setWidth p.2

section

variable {V G : RegFile} {i : Indexed}

theorem Agrees.base (h : Agrees V G i.addrNeeds) :
    Arm.base V (Arm.Rn i) = Arm.base G (Arm.Rn i) := by
  rw [Arm.base_eq, Arm.base_eq]
  exact h (_, 64) (.head _)

theorem Agrees.indexOffset (h : Agrees V G i.addrNeeds) :
    Arm.indexOffset V i = Arm.indexOffset G i := by
  cases i with
  | ST1_ASISDLSOP_R e d Rm hm =>
    show Arm.X V Rm = Arm.X G Rm
    rw [Arm.X, Arm.X, if_neg hm, if_neg hm]
    exact h (_, 64) (.tail _ (.head _))
  | STP | LDP | STR | LDR | ST1_ASISDLSEP_I2_I2 | LD1_ASISDLSEP_I1_I1 | ST1_ASISDLSOP_I => rfl

theorem Agrees.addr (h : Agrees V G i.addrNeeds) : i.addr V = i.addr G := by
  unfold Indexed.addr
  rw [h.base, h.indexOffset]

theorem setWidth_congr {w w' b k : ℕ} {x : BitVec w} {y : BitVec w'}
    (h : x.setWidth b = y.setWidth b) (hk : k ≤ b) : x.setWidth k = y.setWidth k := by
  rw [← BitVec.setWidth_setWidth_of_le x hk, h, BitVec.setWidth_setWidth_of_le y hk]

theorem Agrees.mem {t : Arm.Transfer} (h : Agrees V G (t.stored.map fun er => (er, t.storedBits)))
    (addr : BitVec 64) (mem : Memory) :
    (t.exec addr ⟨V, mem⟩).mem = (t.exec addr ⟨G, mem⟩).mem := by
  have hstored : ∀ er ∈ t.stored, (V er).setWidth t.storedBits = (G er).setWidth t.storedBits :=
    fun er her => h (er, t.storedBits) (List.mem_map_of_mem her)
  -- only the bytes that are stored have to agree
  cases t with
  | storeX n Rts =>
    refine congrArg (storeWords n mem addr) (List.map_congr_left fun r hr => ?_)
    unfold Arm.X
    by_cases h31 : r = 31#5
    · rw [if_pos h31, if_pos h31]
    · have hbits : (V ⟨.General, r.toNat⟩).setWidth (n * 8) =
          (G ⟨.General, r.toNat⟩).setWidth (n * 8) :=
        hstored _ (List.mem_map_of_mem (List.mem_filter.mpr ⟨hr, decide_eq_true h31⟩))
      rw [if_neg h31, if_neg h31]
      rcases le_total (n * 8) 64 with hle | hle
      · rw [BitVec.setWidth_setWidth_of_le _ hle, BitVec.setWidth_setWidth_of_le _ hle, hbits]
      · rw [setWidth_congr hbits hle]
  | storeV n Rts =>
    refine congrArg (storeWords n mem addr) (List.map_congr_left fun r hr => ?_)
    exact hstored _ (List.mem_map_of_mem hr)
  | storeElem n index Rt =>
    refine congrArg (store n mem addr) ?_
    have hbits : (V ⟨.Vector, Rt.toNat⟩).setWidth ((index + 1) * (n * 8)) =
      (G ⟨.Vector, Rt.toNat⟩).setWidth ((index + 1) * (n * 8)) := hstored _ (.head _)
    apply BitVec.eq_of_getLsbD_eq
    intro k hk
    have hlt : index * (n * 8) + k < (index + 1) * (n * 8) := by
      rw [Nat.succ_mul]
      omega
    have hbit := congrArg (fun x => BitVec.getLsbD x (index * (n * 8) + k)) hbits
    simp only [BitVec.getLsbD_setWidth, hlt, decide_true, Bool.true_and] at hbit
    show ((V ⟨.Vector, Rt.toNat⟩).extractLsb' _ _).getLsbD k = _
    rw [BitVec.getLsbD_extractLsb', hbit, ← BitVec.getLsbD_extractLsb']
    rfl
  | loadX | loadV => rfl

/-- The sizes of what is stored. -/
def Arm.Transfer.Small : Arm.Transfer → Prop
  | storeX n Rts => 0 < n ∧ n ≤ 8 ∧ Rts.length ≤ 2
  | storeV n Rts => 0 < n ∧ n ≤ 16 ∧ Rts.length ≤ 2
  | storeElem n index _ => 0 < n ∧ (index + 1) * (n * 8) ≤ 128
  | loadX _ _ _ | loadV _ _ => True

theorem Indexed.small (i : Indexed) : (Arm.transfer i).Small := by
  cases i with
  | STP i m d => cases i <;> exact ⟨by decide, by decide, le_refl 2⟩
  | LDP i m d => cases i <;> trivial
  | STR i m d => cases i <;> exact ⟨by decide, by decide, Nat.le_succ 1⟩
  | LDR i m d => cases i <;> trivial
  | ST1_ASISDLSEP_I2_I2 d =>
    show 0 < Arm.datasizeBytes d ∧ Arm.datasizeBytes d ≤ 16 ∧ 2 ≤ 2
    unfold Arm.datasizeBytes
    by_cases hq : d.Q = 1#1
    · rw [if_pos hq]
      decide
    · rw [if_neg hq]
      decide
  | LD1_ASISDLSEP_I1_I1 d => trivial
  | ST1_ASISDLSOP_I e d | ST1_ASISDLSOP_R e d Rm hm =>
    exact ⟨by cases e <;> decide, Indexed.mul_elem_le e d⟩

/-- What is needed of a register is in it. -/
theorem Indexed.needs_le_whole (i : Indexed) :
    ∀ p ∈ i.needs, p.2 ≤ ERCSize (wholeERC p.1) ∧ p.1.number ≠ IGNORE_WRITE_TO_XZR_ORDER := by
  have hnum : ∀ r : BitVec 5, r.toNat ≠ IGNORE_WRITE_TO_XZR_ORDER := by
    intro r
    have hlt : r.toNat < 32 := r.isLt
    show r.toNat ≠ 39
    omega
  intro p hp
  -- the base, the index, or a stored register
  rcases List.mem_append.mp hp with hp | hp
  · rcases List.mem_cons.mp hp with rfl | hp
    · refine ⟨(ERCSize_base _).ge, ?_⟩
      show (baseReg (Arm.Rn i)).number ≠ IGNORE_WRITE_TO_XZR_ORDER
      unfold baseReg
      by_cases h : Arm.Rn i = 31#5
      · rw [if_pos h]
        decide
      · rw [if_neg h]
        exact hnum _
    · obtain ⟨er, her, rfl⟩ := List.mem_map.mp hp
      obtain ⟨m, -, rfl⟩ := List.mem_map.mp her
      exact ⟨le_refl 64, hnum m⟩
  · obtain ⟨er, her, rfl⟩ := List.mem_map.mp hp
    have hsmall := i.small
    generalize Arm.transfer i = t at her hsmall ⊢
    cases t with
    | storeX n Rts =>
      obtain ⟨r, -, rfl⟩ := List.mem_map.mp her
      exact ⟨by show n * 8 ≤ 64; have := hsmall.2.1; omega, hnum r⟩
    | storeV n Rts =>
      obtain ⟨r, -, rfl⟩ := List.mem_map.mp her
      exact ⟨by show n * 8 ≤ 128; have := hsmall.2.1; omega, hnum r⟩
    | storeElem n index Rt =>
      obtain rfl := List.mem_singleton.mp her
      exact ⟨hsmall.2, hnum Rt⟩
    | loadX | loadV => exact nomatch her

end

/-! ### What a register reads as -/

/-- A register as it reads after a first load by a class. -/
def narrow : Option ERC → BitVec 128 → BitVec 128
  | some erc, reg => (Value.low erc reg).whole
  | none, reg => reg

theorem narrow_setWidth {o : Option ERC} {b : ℕ} (h : ∀ erc, o = some erc → b ≤ ERCSize erc)
    (reg : BitVec 128) : (narrow o reg).setWidth b = reg.setWidth b := by
  cases o with
  | none => rfl
  | some erc =>
    have hle := h erc rfl
    show (((reg.setWidth (ERCSize erc)).setWidth 128).setWidth b) = _
    rw [BitVec.setWidth_setWidth_of_le _ (hle.trans (ERCSize_le erc)),
      BitVec.setWidth_setWidth_of_le _ hle]

theorem narrow_zero (o : Option ERC) : narrow o 0#128 = 0#128 := by
  cases o with
  | none => rfl
  | some erc =>
    show ((0#128).setWidth (ERCSize erc)).setWidth 128 = 0#128
    rw [BitVec.setWidth_zero, BitVec.setWidth_zero]

section

variable {drvd : EcvReg → Option ERC} {R : RegFile} {done : List (BlockItem x86_64)}
  {s : BlockState} {er : EcvReg}

theorem BlockInv.reads_kept (h : BlockInv drvd R done s)
    (her : er ∉ done.flatMap BlockItem.updates) (loads : List (EcvReg × ERC)) :
    (s.cur.touch R loads).regs R er =
      narrow ((firstERC drvd done er).or (firstClass er loads)) (R er) := by
  have htouch : s.cur.touch R loads er =
      ((firstERC drvd done er).or (firstClass er loads)).map fun erc => .low erc (R er) := by
    rw [Cache.touch_eq, (h.kept er her).2]
    cases firstERC drvd done er <;> rfl
  unfold Cache.regs
  rw [htouch]
  cases (firstERC drvd done er).or (firstClass er loads) <;> rfl

theorem BlockInv.reads_updated (h : BlockInv drvd R done s)
    (hnum : er.number ≠ IGNORE_WRITE_TO_XZR_ORDER) (her : er ∈ done.flatMap BlockItem.updates)
    {b : ℕ} (hb : b ≤ ERCSize (wholeERC er)) (loads : List (EcvReg × ERC)) :
    ((s.cur.touch R loads).regs R er).setWidth b = (s.regs er).setWidth b := by
  obtain ⟨v, hv, hholds⟩ := h.updated er hnum her
  rw [Cache.regs_of_some (Cache.touch_of_some hv)]
  refine (BitVec.setWidth_setWidth_of_le _ (hb.trans (ERCSize_le _))).trans ?_
  exact setWidth_congr hholds hb

/-- The registers of an instruction agree where they were written, or first read wide enough. -/
theorem BlockInv.agrees (h : BlockInv drvd R done s) (i : IndexedInst x86_64)
    (hi : i.access.Supported x86_64)
    (hwide : ∀ p ∈ i.access.needs, p.1 ∉ done.flatMap BlockItem.updates →
      ∀ erc, firstERC drvd done p.1 = some erc → p.2 ≤ ERCSize erc) :
    Agrees ((s.cur.touch R i.inst.loads).regs R) s.regs i.access.needs := by
  intro p hp
  obtain ⟨hle, hnum⟩ := i.access.needs_le_whole p hp
  by_cases hmem : p.1 ∈ done.flatMap BlockItem.updates
  · exact h.reads_updated hnum hmem hle _
  · rw [h.reads_kept hmem, (h.kept p.1 hmem).1]
    refine narrow_setWidth (fun erc herc => ?_) _
    rcases hfirst : firstERC drvd done p.1 with - | erc'
    · -- the instruction loads the register first
      rw [hfirst] at herc
      obtain ⟨a, ha, heq⟩ := List.exists_of_findSome?_eq_some herc
      by_cases haer : a.1 = p.1
      · rw [if_pos haer] at heq
        cases heq
        exact i.access.needs_le_loads hi i.decoded i.spares p hp a ha haer
      · rw [if_neg haer] at heq
        exact nomatch heq
    · rw [hfirst] at herc
      cases herc
      exact hwide p hp hmem _ hfirst

end

/-! ### Exactness -/

/-- On registers that agree an instruction is exact. -/
theorem exactAt_of_agrees (i : IndexedInst x86_64) (hi : i.access.Supported x86_64) {R : RegFile}
    {s : BlockState} {rest : List (BlockItem x86_64)} (hrest : ∀ item ∈ rest, item.Supported)
    (h : Agrees ((s.cur.touch R i.inst.loads).regs R) s.regs i.access.needs) :
    i.ExactAt R s rest := by
  obtain ⟨cur, s', hs', hstep, heffect⟩ := step_indexed i hi R s
  refine ⟨s', hstep, ?_, ?_⟩
  · have haddr : Agrees ((s.cur.touch R i.inst.loads).regs R) s.regs i.access.addrNeeds :=
      fun p hp => h p (List.mem_append_left _ hp)
    have hmem := Agrees.mem (fun p hp => h p (List.mem_append_right _ hp)) (i.access.addr s.regs)
      s.mem
    rw [hs', haddr.addr, haddr.base, haddr.indexOffset, hmem, Arm.execIndexed_eq]
    rfl
  · rintro mid after rfl s'' hrun er her hnum hmid erc herc
    obtain ⟨v, hv, hholds⟩ := heffect.updated er hnum her
    have hkept := run_keeps mid s' (fun item hitem => hrest item (List.mem_append_left _ hitem))
      hmid hv hrun
    rw [Cache.load_of_some hkept]
    exact hholds.cast herc

/-! ### Registers that are too narrow -/

/-- The registers on which the bits that a narrow read leaves out show. -/
def onesAt (er : EcvReg) : RegFile := Function.update (fun _ => 0#128) er (BitVec.allOnes 128)

theorem onesAt_self (er : EcvReg) : onesAt er er = BitVec.allOnes 128 := Function.update_self ..

theorem onesAt_of_ne {er er' : EcvReg} (h : er' ≠ er) : onesAt er er' = 0#128 :=
  Function.update_of_ne h ..

theorem getLsbD_narrow {erc : ERC} {k : ℕ} (h : ERCSize erc ≤ k) (reg : BitVec 128) :
    (narrow (some erc) reg).getLsbD k = false := by
  show ((reg.setWidth (ERCSize erc)).setWidth 128).getLsbD k = false
  rw [BitVec.getLsbD_setWidth, BitVec.getLsbD_of_ge _ _ h, Bool.and_false]

theorem narrow_ones {erc : ERC} (h : ERCSize erc < 64) :
    (narrow (some erc) (BitVec.allOnes 128)).setWidth 64 ≠ (BitVec.allOnes 128).setWidth 64 ∧
      (narrow (some erc) (BitVec.allOnes 128)).setWidth 64 +
          (narrow (some erc) (BitVec.allOnes 128)).setWidth 64 ≠
        (BitVec.allOnes 128).setWidth 64 + (BitVec.allOnes 128).setWidth 64 := by
  cases erc <;> first | decide | exact absurd h (by decide)

section

variable {V G : RegFile} {i : Indexed} {er : EcvReg} {erc : ERC}

theorem index_cases (i : Indexed) :
    (i.indexRegs = [] ∧ ∃ offset, ∀ R, Arm.indexOffset R i = offset) ∨
      ∃ index, i.indexRegs = [index] ∧ ∀ R, Arm.indexOffset R i = (R index).setWidth 64 := by
  cases i with
  | ST1_ASISDLSOP_R e d Rm hm => exact .inr ⟨_, rfl, fun R => if_neg hm⟩
  | STP | LDP | STR | LDR | ST1_ASISDLSEP_I2_I2 | LD1_ASISDLSEP_I1_I1 | ST1_ASISDLSOP_I =>
    exact .inl ⟨rfl, _, fun _ => rfl⟩

/-- Where the base or the index is too narrow, so is their sum. -/
theorem sum_ne (hagree : ∀ p ∈ i.addrNeeds, p.1 ≠ er → (V p.1).setWidth p.2 = (G p.1).setWidth p.2)
    (hV : V er = narrow (some erc) (BitVec.allOnes 128)) (hG : G er = BitVec.allOnes 128)
    (hmem : er = baseReg (Arm.Rn i) ∨ er ∈ i.indexRegs) (herc : ERCSize erc < 64) :
    Arm.base V (Arm.Rn i) + Arm.indexOffset V i ≠ Arm.base G (Arm.Rn i) + Arm.indexOffset G i := by
  obtain ⟨hne, hne2⟩ := narrow_ones herc
  have hbase : baseReg (Arm.Rn i) ≠ er → (V (baseReg (Arm.Rn i))).setWidth 64 =
      (G (baseReg (Arm.Rn i))).setWidth 64 := hagree (_, 64) (.head _)
  rw [← hV, ← hG] at hne hne2
  rw [Arm.base_eq, Arm.base_eq]
  -- a wrong base alone or a wrong index alone shifts the sum; together they shift it by twice as
  -- much
  rcases index_cases i with ⟨hindex, offset, hoffset⟩ | ⟨index, hindex, hoffset⟩
  · rw [hindex] at hmem
    obtain rfl := hmem.resolve_right nofun
    rw [hoffset, hoffset]
    exact fun h => hne ((BitVec.add_left_inj _).mp h)
  · have hagree' : index ≠ er → (V index).setWidth 64 = (G index).setWidth 64 := by
      refine hagree (index, 64) (.tail _ ?_)
      rw [hindex]
      exact .head _
    rw [hoffset, hoffset]
    by_cases hx : index = er
    · rw [hx]
      by_cases hb : baseReg (Arm.Rn i) = er
      · rw [hb]
        exact hne2
      · rw [hbase hb]
        exact fun h => hne ((BitVec.add_right_inj _).mp h)
    · have hb : er = baseReg (Arm.Rn i) := by
        rw [hindex] at hmem
        exact hmem.resolve_right fun h => hx (List.mem_singleton.mp h).symm
      rw [hagree' hx, ← hb]
      exact fun h => hne ((BitVec.add_left_inj _).mp h)

/-- The top bit of what is stored shows in the memory. -/
theorem getLsbD_of_mem_eq {t : Arm.Transfer} (hsmall : t.Small) {addr : BitVec 64} {mem : Memory}
    (h : (t.exec addr ⟨V, mem⟩).mem = (t.exec addr ⟨G, mem⟩).mem) :
    ∀ er ∈ t.stored, (V er).getLsbD (t.storedBits - 1) = (G er).getLsbD (t.storedBits - 1) := by
  intro er her
  -- what is stored is read back from the memory, and its top bit is the one meant
  cases t with
  | storeX n Rts =>
    obtain ⟨hpos, hn, hlen⟩ := hsmall
    obtain ⟨r, hr, rfl⟩ := List.mem_map.mp her
    obtain ⟨hr, h31⟩ := List.mem_filter.mp hr
    have hbytes : n * (Rts.map fun r => (Arm.X V r).setWidth (n * 8)).length ≤ 2 ^ 64 := by
      rw [List.length_map]
      exact (Nat.mul_le_mul hn hlen).trans (by decide)
    have hwords := storeWords_inj hbytes (by rw [List.length_map, List.length_map]) h
    have hword : (Arm.X V r).setWidth (n * 8) = (Arm.X G r).setWidth (n * 8) :=
      List.map_inj_left.mp hwords r hr
    unfold Arm.X at hword
    -- register 31 is stored as zero, so it is not among the registers
    rw [if_neg (of_decide_eq_true h31), if_neg (of_decide_eq_true h31),
      BitVec.setWidth_setWidth_of_le _ (by omega), BitVec.setWidth_setWidth_of_le _ (by omega)]
      at hword
    have hbit := congrArg (fun x => BitVec.getLsbD x (n * 8 - 1)) hword
    simp only [BitVec.getLsbD_setWidth, show n * 8 - 1 < n * 8 by omega, decide_true,
      Bool.true_and] at hbit
    exact hbit
  | storeV n Rts =>
    obtain ⟨hpos, hn, hlen⟩ := hsmall
    obtain ⟨r, hr, rfl⟩ := List.mem_map.mp her
    have hbytes : n * (Rts.map fun r => (Arm.V V r).setWidth (n * 8)).length ≤ 2 ^ 64 := by
      rw [List.length_map]
      exact (Nat.mul_le_mul hn hlen).trans (by decide)
    have hwords := storeWords_inj hbytes (by rw [List.length_map, List.length_map]) h
    have hword : (Arm.V V r).setWidth (n * 8) = (Arm.V G r).setWidth (n * 8) :=
      List.map_inj_left.mp hwords r hr
    have hbit := congrArg (fun x => BitVec.getLsbD x (n * 8 - 1)) hword
    simp only [BitVec.getLsbD_setWidth, show n * 8 - 1 < n * 8 by omega, decide_true,
      Bool.true_and] at hbit
    exact hbit
  | storeElem n index Rt =>
    obtain ⟨hpos, hle⟩ := hsmall
    obtain rfl := List.mem_singleton.mp her
    rw [Nat.succ_mul] at hle
    have hword := (store_inj (by omega)).mp h
    have hbit := congrArg (fun x => BitVec.getLsbD x (n * 8 - 1)) hword
    simp only [BitVec.getLsbD_extractLsb', show n * 8 - 1 < n * 8 by omega, decide_true,
      Bool.true_and] at hbit
    have htop : index * (n * 8) + (n * 8 - 1) = (index + 1) * (n * 8) - 1 := by
      rw [Nat.succ_mul]
      omega
    rw [htop] at hbit
    exact hbit
  | loadX | loadV => exact nomatch her

end

section

variable {drvd : EcvReg → Option ERC} {block : List (BlockItem x86_64)}

/-- A need that is read too narrow makes the instruction wrong. -/
theorem needsWide_of_exact (hsup : ∀ item ∈ block, item.Supported)
    (h : ExactIndexed drvd block) : NeedsWide drvd block := by
  rintro done i rest rfl p hp hkept erc herc
  by_contra hlt
  replace hlt : ERCSize erc < p.2 := Nat.lt_of_not_le hlt
  have hi : i.access.Supported x86_64 := hsup (.indexed i) (List.mem_append_right _ (.head _))
  obtain ⟨hle, -⟩ := i.access.needs_le_whole p hp
  -- a run to the instruction, with ones in the register and zeros elsewhere
  obtain ⟨s, hrun, hexact⟩ := h ⟨onesAt p.1, fun _ => 0#8⟩ done i rest rfl
  obtain ⟨s₀, hrun₀, hinv⟩ := exists_run drvd ⟨onesAt p.1, fun _ => 0#8⟩ done
    fun item hitem => hsup item (List.mem_append_left _ hitem)
  cases hrun.symm.trans hrun₀
  replace hinv : BlockInv drvd (onesAt p.1) done s := hinv
  obtain ⟨s', hstep, hguest, -⟩ := hexact
  obtain ⟨cur, s'', hs'', hstep', -⟩ := step_indexed i hi (onesAt p.1) s
  cases hstep.symm.trans hstep'
  rw [hs'', Arm.execIndexed_eq] at hguest
  have hregs := congrArg Guest.regs hguest
  have hmem := congrArg Guest.mem hguest
  generalize hVdef : (s.cur.touch (onesAt p.1) i.inst.loads).regs (onesAt p.1) = V at hregs hmem
  have hV : V p.1 = narrow (some erc) (BitVec.allOnes 128) := by
    rw [← hVdef, hinv.reads_kept hkept, herc, onesAt_self]
    rfl
  have hG : s.regs p.1 = BitVec.allOnes 128 := (hinv.kept p.1 hkept).1.trans (onesAt_self _)
  have hagree : ∀ q ∈ i.access.needs, q.1 ≠ p.1 →
      (V q.1).setWidth q.2 = (s.regs q.1).setWidth q.2 := by
    intro q hq hne
    obtain ⟨hqle, hnum⟩ := i.access.needs_le_whole q hq
    by_cases hq' : q.1 ∈ done.flatMap BlockItem.updates
    · rw [← hVdef]
      exact hinv.reads_updated hnum hq' hqle _
    · rw [← hVdef, hinv.reads_kept hq', (hinv.kept q.1 hq').1, onesAt_of_ne hne, narrow_zero]
  -- the new base
  have hsum : Arm.base V (Arm.Rn i.access) + Arm.indexOffset V i.access =
      Arm.base s.regs (Arm.Rn i.access) + Arm.indexOffset s.regs i.access := by
    have hbase := congrFun hregs (baseReg (Arm.Rn i.access))
    simp only [Arm.setBase_eq, BlockState.guest, Function.update_self] at hbase
    have h64 := congrArg (BitVec.setWidth 64) hbase
    rwa [BitVec.setWidth_setWidth (by decide), BitVec.setWidth_setWidth (by decide),
      BitVec.setWidth_eq, BitVec.setWidth_eq] at h64
  have haddr : ∀ q ∈ i.access.addrNeeds, q.1 ≠ p.1 →
      (V q.1).setWidth q.2 = (s.regs q.1).setWidth q.2 :=
    fun q hq => hagree q (List.mem_append_left _ hq)
  rcases List.mem_append.mp hp with hp | hp
  · have h64 : p.2 = 64 ∧ (p.1 = baseReg (Arm.Rn i.access) ∨ p.1 ∈ i.access.indexRegs) := by
      rcases List.mem_cons.mp hp with rfl | hp
      · exact ⟨rfl, .inl rfl⟩
      · obtain ⟨er, her, rfl⟩ := List.mem_map.mp hp
        exact ⟨rfl, .inr her⟩
    exact sum_ne haddr hV hG h64.2 (h64.1 ▸ hlt) hsum
  · obtain ⟨er, her, rfl⟩ := List.mem_map.mp hp
    have hall : Agrees V s.regs i.access.addrNeeds := by
      intro q hq
      refine haddr q hq ?_
      intro heq
      replace heq : q.1 = er := heq
      rw [← heq] at her
      rcases List.mem_cons.mp hq with rfl | hq
      · exact i.access.base_notMem_stored i.spares her
      · obtain ⟨index, hindex, rfl⟩ := List.mem_map.mp hq
        exact (i.access.index_notMem index hindex).1 her
    rw [hall.addr] at hmem
    have hbit := getLsbD_of_mem_eq i.access.small hmem er her
    rw [hV, hG, getLsbD_narrow (Nat.le_sub_one_of_lt hlt), BitVec.getLsbD_allOnes] at hbit
    have htop : (Arm.transfer i.access).storedBits - 1 < 128 := by
      have h128 : (Arm.transfer i.access).storedBits ≤ 128 := hle.trans (ERCSize_le _)
      omega
    exact of_decide_eq_false hbit.symm htop

/-- A block whose instructions have operands and functions that are right is exact when and only
when what they need is wide enough. -/
theorem exactIndexed_iff (hsup : ∀ item ∈ block, item.Supported) :
    ExactIndexed drvd block ↔ NeedsWide drvd block := by
  refine ⟨needsWide_of_exact hsup, fun h g done i rest hblock => ?_⟩
  subst hblock
  obtain ⟨s, hrun, hinv⟩ := exists_run drvd g done
    fun item hitem => hsup item (List.mem_append_left _ hitem)
  have hi : i.access.Supported x86_64 := hsup (.indexed i) (List.mem_append_right _ (.head _))
  refine ⟨s, hrun, exactAt_of_agrees i hi ?_ ?_⟩
  · exact fun item hitem => hsup item (List.mem_append_right _ (.tail _ hitem))
  · exact hinv.agrees i hi (h done i rest rfl)

end

/-- **Pre- and post-index write-back.**  In a function whose results are stored at once an
instruction is right on every state exactly when its operands and its function are, and it is not
the load of one register into the zero register.  In the blocks of an optimised function such
instructions are right, one after the other, exactly when no register that they need was read
narrower first. -/
theorem write_back_exact_iff (x86_64 : Bool) :
    (∀ i : IndexedInst x86_64,
      (∀ g, execInst true (i.access.isel x86_64) i.inst g =
          some (Arm.execIndexed i.access g)) ↔
        i.access.Supported x86_64 ∧ ¬(Arm.transfer i.access).LoadsZero) ∧
      ∀ (drvd : EcvReg → Option ERC) (block : List (BlockItem x86_64)),
        (∀ item ∈ block, item.Supported) →
          (ExactIndexed drvd block ↔ NeedsWide drvd block) := by
  refine ⟨fun i => ?_, fun drvd block hsup => exactIndexed_iff hsup⟩
  rw [exec_indexed_iff true i]
  refine and_congr_right fun _ => ?_
  exact ⟨fun h => h.resolve_left nofun, .inr⟩

/-- `LDR X3, [X1], #8` -/
def ldrPost (x86_64 : Bool) : IndexedInst x86_64 where
  access := .LDR .LDR_64 .POST ⟨8#9, 1#5, 3#5⟩
  inst := AddIndexMemOp [writeReg .RegX 3#5] 1#5 8#64 [3#5] .POST
  decoded := rfl
  spares := .inr (by decide)

/-- Two loads in a row move the base twice, on a host of any kind. -/
theorem write_back_exact_twice :
    ExactIndexed (fun _ => none) [.indexed (ldrPost true), .indexed (ldrPost true)] := by
  refine ((write_back_exact_iff true).2 _ _ ?_).mpr ?_
  · intro item hitem
    rcases List.mem_pair.mp hitem with rfl | rfl <;> trivial
  · intro done i rest hblock p hp hkept erc herc
    rcases done with - | ⟨d, - | ⟨d', done⟩⟩
    · exact nomatch herc
    · -- the first of them has written the base
      cases hblock
      obtain rfl : p = (⟨.General, 1⟩, 64) := List.mem_singleton.mp hp
      exact absurd (by decide) hkept
    · have hnil := (List.cons.inj (List.cons.inj hblock).2).2
      exact absurd (List.append_eq_nil_iff.mp hnil.symm).2 (List.cons_ne_nil _ _)

/-- The register that `MOV W2, W1` writes takes a word of 32 bits, as `PlainInst.casts` asks. -/
theorem castChecks_X2 (_ : List Value) (_ : Memory) (i : ℕ) (er : EcvReg) (erc : ERC)
    (hi : [(⟨.General, 2⟩ : EcvReg)][i]? = some er) (_ : er.number ≠ IGNORE_WRITE_TO_XZR_ORDER)
    (h : er.reg_kind.allows erc = true ∨ erc = wholeERC er) : castChecks er .RegW erc = true := by
  obtain rfl : er = ⟨.General, 2⟩ := List.mem_singleton.mp (List.mem_of_getElem? hi)
  cases erc <;> first | rfl | exact absurd h (by decide)

/-- `W1` is a name: the number of the register is below 31. -/
theorem one_lt_31 : 1 < 31 := by decide

/-- `MOV W2, W1` -/
def movW2W1 : PlainInst where
  reads := [.W ⟨1, one_lt_31⟩]
  writes := [⟨.General, 2⟩]
  sema vs mem := (fun i => ⟨.RegW, (vs.getD i ⟨.RegW, 0#32⟩).bits.setWidth 32⟩, mem)
  casts := castChecks_X2

/-- `STP Q0, Q1, [SP, #-32]!` on x86-64 loses the upper halves, and after `MOV W2, W1` the base of
`LDR X3, [X1], #8` is a word of 32 bits. -/
theorem write_back_inexact :
    execInst true (Indexed.isel true (.STP .STP_Q .PRE ⟨126#7, 1#5, 31#5, 0#5⟩))
        (AddIndexMemOp [readReg .Reg2D 0#5, readReg .Reg2D 1#5] 31#5
          ((126#7).signExtend 64 <<< 4) [] .PRE) .ones ≠
      some (Arm.execIndexed (.STP .STP_Q .PRE ⟨126#7, 1#5, 31#5, 0#5⟩) .ones) ∧
    ¬ExactIndexed (fun _ => none) [.plain movW2W1, .indexed (ldrPost false)] := by
  refine ⟨exec_STP_Q rfl, fun h => ?_⟩
  have hwide := needsWide_of_exact ?_ h
  · have h64 := hwide [_] (ldrPost false) [] rfl (⟨.General, 1⟩, 64) (.head _) (by decide) .RegW rfl
    exact absurd h64 (by decide)
  · intro item hitem
    rcases List.mem_pair.mp hitem with rfl | rfl <;> trivial

end Elfconv.AArch64
