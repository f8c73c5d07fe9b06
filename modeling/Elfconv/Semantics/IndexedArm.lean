/-
Elfconv/Semantics/IndexedArm.lean

Pre- and post-indexed loads and stores in the unoptimised function.

The operands of an instruction come to one call of its semantics function, with the address that the
architecture accesses.  `exec_indexed_iff` says which instructions leave the registers and the
memory that the architecture leaves.
-/
import Elfconv.Semantics.Indexed
import Elfconv.Semantics.OptBlock

namespace Elfconv.AArch64

open ByteMemory

variable {n : ℕ}

/-! ### What the operands come to -/

/-- An operand of a register by its class. -/
def regValue (rclass : ERC) (R : RegFile) (r : BitVec 5) : Value :=
  if rclass = .RegW ∨ rclass = .RegX then ⟨rclass, (Arm.X R r).setWidth _⟩
  else .low rclass (Arm.V R r)

/-- The classes of general and vector registers. -/
def Readable (rclass : ERC) : Prop :=
  RegKind.General.allows rclass = true ∨ RegKind.Vector.allows rclass = true

section

variable {rclass : ERC} {R : RegFile} {mem : Memory} {r r1 r2 base_reg : BitVec 5}
  {disp : BitVec 64} {dest_regs : List (BitVec 5)} {m : Index}

/-- A register that is read is one argument. -/
theorem args_readReg (h : Readable rclass) :
    SemaOperand.args R (readReg rclass r) = some [.value (regValue rclass R r)] := by
  rcases h with h | h
  · cases rclass <;> first | exact absurd h (by decide) | skip
    · exact args_W R r
    · show _ = some [Arg.value ⟨.RegX, (Arm.X R r).setWidth 64⟩]
      rw [BitVec.setWidth_eq]
      exact args_X R r
  · have hne : ¬(rclass = .RegW ∨ rclass = .RegX) := by
      rintro (rfl | rfl) <;> exact absurd h (by decide)
    rw [regValue, if_neg hne]
    exact args_V R r h

/-- The address of an access. -/
def accessAddr (m : Index) (base disp : BitVec 64) : BitVec 64 :=
  match m with
  | .PRE => base + disp
  | .POST => base

/-- What a call does to the memory, and its results. -/
structure Lifted (inst : SemaInst) (sema : Sema) (R : RegFile) (mem : Memory)
    (writes : List EcvReg) (results : List Value) (mem' : Memory) : Prop where
  intro ::
  lifted : ∃ args ws, inst.operands.mapM (SemaOperand.args R) = some args ∧
    inst.operands.mapM SemaOperand.writes = some ws ∧ ws.flatten = writes ∧
    sema args.flatten mem = some (results, mem')

theorem mapM_AddIndexMemOp {β : Type} (f : SemaOperand → Option β) (operands : List SemaOperand) :
    (AddIndexMemOp operands base_reg disp dest_regs m).operands.mapM f =
      (operands.mapM f).bind fun xs =>
        (f (.address base_reg (accessAddr m 0#64 disp))).map fun x => xs ++ [x] := by
  have hsnoc : ∀ op, (operands ++ [op]).mapM f =
      (operands.mapM f).bind fun xs => (f op).map fun x => xs ++ [x] := by
    intro op
    rw [List.mapM_append, List.mapM_cons, List.mapM_nil]
    cases operands.mapM f <;> cases f op <;> rfl
  cases m with
  | PRE =>
    show _ = (operands.mapM f).bind fun xs => (f (.address base_reg (0#64 + disp))).map _
    rw [BitVec.zero_add]
    exact hsnoc _
  | POST => exact hsnoc _

/-- A call behind an address operand. -/
theorem lifted_AddIndexMemOp {operands : List SemaOperand} {args : List (List Arg)}
    {ws : List (List EcvReg)} {sema : Sema} {results : List Value} {mem' : Memory}
    (hargs : operands.mapM (SemaOperand.args R) = some args)
    (hwrites : operands.mapM SemaOperand.writes = some ws)
    (hcall : sema (args.flatten ++ [.word (accessAddr m (Arm.base R base_reg) disp)]) mem =
      some (results, mem')) :
    Lifted (AddIndexMemOp operands base_reg disp dest_regs m) sema R mem ws.flatten results
      mem' := by
  have haddr : Arm.base R base_reg + accessAddr m 0#64 disp =
      accessAddr m (Arm.base R base_reg) disp := by
    cases m with
    | PRE => exact congrArg (_ + ·) (BitVec.zero_add disp)
    | POST => exact BitVec.add_zero _
  refine ⟨args ++ [[.word (accessAddr m (Arm.base R base_reg) disp)]], ws ++ [[]], ?_, ?_, ?_, ?_⟩
  · rw [mapM_AddIndexMemOp, hargs, args_address, haddr]
    rfl
  · rw [mapM_AddIndexMemOp, hwrites]
    rfl
  · rw [List.flatten_append]
    exact List.append_nil _
  · rw [List.flatten_append]
    exact hcall

/-! ### Stores -/

/-- The pair goes to memory. -/
theorem lifted_storePair (h : Readable rclass) (f : Value → BitVec (n * 8)) :
    Lifted (AddIndexMemOp [readReg rclass r1, readReg rclass r2] base_reg disp dest_regs m)
      (callStorePair n f) R mem [] []
      (storeWords n mem (accessAddr m (Arm.base R base_reg) disp)
        [f (regValue rclass R r1), f (regValue rclass R r2)]) := by
  have hargs : [readReg rclass r1, readReg rclass r2].mapM (SemaOperand.args R) =
      some [[.value (regValue rclass R r1)], [.value (regValue rclass R r2)]] := by
    simp [args_readReg h]
  have hwrites : [readReg rclass r1, readReg rclass r2].mapM SemaOperand.writes =
      some [[], []] :=
    rfl
  exact lifted_AddIndexMemOp hargs hwrites rfl

/-- The register goes to memory. -/
theorem lifted_store (h : Readable rclass) (f : Value → BitVec (n * 8)) :
    Lifted (AddIndexMemOp [readReg rclass r] base_reg disp dest_regs m) (callStore n f) R mem [] []
      (storeWords n mem (accessAddr m (Arm.base R base_reg) disp) [f (regValue rclass R r)]) := by
  have hargs : [readReg rclass r].mapM (SemaOperand.args R) =
      some [[.value (regValue rclass R r)]] := by
    simp [args_readReg h]
  have hwrites : [readReg rclass r].mapM SemaOperand.writes = some [[]] := rfl
  exact lifted_AddIndexMemOp hargs hwrites rfl

/-- The element goes to memory. -/
theorem lifted_storeElem (h : Readable rclass) (index : BitVec 64) :
    Lifted (AddIndexMemOp [readReg rclass r, .imm index] base_reg disp dest_regs m)
      (ST1_UNIT_POSTINDEX n) R mem [] [] (store n mem (accessAddr m (Arm.base R base_reg) disp)
        ((regValue rclass R r).bits.extractLsb' (index.toNat * (n * 8)) (n * 8))) := by
  have hargs : [readReg rclass r, .imm index].mapM (SemaOperand.args R) =
      some [[.value (regValue rclass R r)], [.word index]] := by
    simp [args_readReg h]
  have hwrites : [readReg rclass r, .imm index].mapM SemaOperand.writes = some [[], []] := rfl
  exact lifted_AddIndexMemOp hargs hwrites rfl

theorem read_regValue_X (h : RegKind.General.allows rclass = true) (hn : n * 8 ≤ ERCSize rclass) :
    Value.read n (regValue rclass R r) = (Arm.X R r).setWidth (n * 8) := by
  have hgen : rclass = .RegW ∨ rclass = .RegX := by
    cases rclass <;> first | exact absurd h (by decide) | decide
  rw [regValue, if_pos hgen]
  exact BitVec.setWidth_setWidth_of_le _ hn

theorem regValue_V (h : RegKind.Vector.allows rclass = true) :
    regValue rclass R r = .low rclass (Arm.V R r) := by
  refine if_neg ?_
  rintro (rfl | rfl) <;> exact absurd h (by decide)

theorem read_regValue_V (h : RegKind.Vector.allows rclass = true) (hn : n * 8 ≤ ERCSize rclass) :
    Value.read n (regValue rclass R r) = (Arm.V R r).setWidth (n * 8) := by
  rw [regValue_V h]
  exact BitVec.setWidth_setWidth_of_le _ hn

/-! ### Loads -/

/-- The register that a destination is stored to. -/
def destReg (rclass : ERC) (r : BitVec 5) : EcvReg :=
  if rclass = .RegW ∨ rclass = .RegX then destX r else ⟨.Vector, r.toNat⟩

theorem writes_writeReg (h : Readable rclass) :
    SemaOperand.writes (writeReg rclass r) = some [destReg rclass r] := by
  rcases h with h | h
  · have hgen : rclass = .RegW ∨ rclass = .RegX := by
      cases rclass <;> first | exact absurd h (by decide) | decide
    rw [destReg, if_pos hgen]
    exact writes_general r h
  · have hne : ¬(rclass = .RegW ∨ rclass = .RegX) := by
      rintro (rfl | rfl) <;> exact absurd h (by decide)
    rw [destReg, if_neg hne]
    exact writes_V r h

/-- The words of memory go to the registers. -/
theorem lifted_load (h : Readable rclass) (Rts : List (BitVec 5)) (erc : ERC)
    (f : BitVec (n * 8) → BitVec (ERCSize erc)) :
    Lifted (AddIndexMemOp (Rts.map (writeReg rclass)) base_reg disp dest_regs m)
      (callLoad n Rts.length erc f) R mem (Rts.map (destReg rclass))
      ((loadWords n mem (accessAddr m (Arm.base R base_reg) disp) Rts.length).map
        fun x => ⟨erc, f x⟩) mem := by
  have hargs : ∀ l : List (BitVec 5), (l.map (writeReg rclass)).mapM (SemaOperand.args R) =
      some (l.map fun _ => []) := by
    intro l
    induction l with
    | nil => rfl
    | cons r l ih =>
      rw [List.map_cons, List.mapM_cons, ih]
      rfl
  have hwrites : ∀ l : List (BitVec 5), (l.map (writeReg rclass)).mapM SemaOperand.writes =
      some (l.map fun r => [destReg rclass r]) := by
    intro l
    induction l with
    | nil => rfl
    | cons r l ih =>
      rw [List.map_cons, List.mapM_cons, ih, writes_writeReg h]
      rfl
  have hargs_flat : ∀ l : List (BitVec 5), (l.map fun _ => ([] : List Arg)).flatten = [] := by
    intro l
    induction l with
    | nil => rfl
    | cons r l ih => exact ih
  have hwrites_flat : ∀ l : List (BitVec 5), (l.map fun r => [destReg rclass r]).flatten =
      l.map (destReg rclass) := by
    intro l
    induction l with
    | nil => rfl
    | cons r l ih => exact congrArg (destReg rclass r :: ·) ih
  rw [← hwrites_flat]
  apply lifted_AddIndexMemOp (hargs Rts) (hwrites Rts)
  rw [hargs_flat]
  rfl

end

/-! ### The instructions -/

/-- The instructions whose operands and semantics function are right. -/
def Indexed.Supported (x86_64 : Bool) : Indexed → Prop
  | .STP .STP_Q _ _ => x86_64 = false
  | .ST1_ASISDLSEP_I2_I2 _ => False
  | _ => True

/-- The registers that are written, the results for them and the memory, as the architecture has
them. -/
def Arm.Transfer.Moves (addr : BitVec 64) (R : RegFile) (mem : Memory) (writes : List EcvReg)
    (results : List Value) (mem' : Memory) : Arm.Transfer → Prop
  | storeX n Rts => writes = [] ∧ results = [] ∧
      mem' = storeWords n mem addr (Rts.map fun r => (X R r).setWidth _)
  | storeV n Rts => writes = [] ∧ results = [] ∧
      mem' = storeWords n mem addr (Rts.map fun r => (V R r).setWidth _)
  | storeElem n index Rt => writes = [] ∧ results = [] ∧
      mem' = store n mem addr ((V R Rt).extractLsb' (index * (n * 8)) (n * 8))
  | loadX n extend Rts => writes = Rts.map destX ∧
      (results.map fun v => v.bits.setWidth 64) = (loadWords n mem addr Rts.length).map extend ∧
      mem' = mem
  | loadV n Rts => (writes = Rts.map fun r => ⟨.Vector, r.toNat⟩) ∧
      results.map Value.whole = (loadWords n mem addr Rts.length).map (BitVec.setWidth 128) ∧
      mem' = mem

/-- The call that an instruction comes to moves what the architecture moves. -/
def Call (inst : SemaInst) (sema : Sema) (R : RegFile) (mem : Memory) (addr : BitVec 64)
    (t : Arm.Transfer) : Prop :=
  ∃ writes results mem', Lifted inst sema R mem writes results mem' ∧
    t.Moves addr R mem writes results mem'

section

variable {rclass : ERC} {R : RegFile} {mem : Memory} {r r1 r2 base_reg : BitVec 5}
  {disp disp' : BitVec 64} {dest_regs : List (BitVec 5)} {m : Index}

theorem call_storePair_X (h : RegKind.General.allows rclass = true) (hn : n * 8 ≤ ERCSize rclass)
    (hdisp : disp = disp') :
    Call (AddIndexMemOp [readReg rclass r1, readReg rclass r2] base_reg disp dest_regs m)
      (callStorePair n (Value.read n)) R mem (accessAddr m (Arm.base R base_reg) disp')
      (.storeX n [r1, r2]) := by
  refine ⟨[], [], _, lifted_storePair (.inl h) _, rfl, rfl, ?_⟩
  rw [read_regValue_X h hn, read_regValue_X h hn, hdisp]
  rfl

theorem call_storePair_V (h : RegKind.Vector.allows rclass = true) (hn : n * 8 ≤ ERCSize rclass)
    (hdisp : disp = disp') :
    Call (AddIndexMemOp [readReg rclass r1, readReg rclass r2] base_reg disp dest_regs m)
      (callStorePair n (Value.read n)) R mem (accessAddr m (Arm.base R base_reg) disp')
      (.storeV n [r1, r2]) := by
  refine ⟨[], [], _, lifted_storePair (.inr h) _, rfl, rfl, ?_⟩
  rw [read_regValue_V h hn, read_regValue_V h hn, hdisp]
  rfl

theorem call_store_X (h : RegKind.General.allows rclass = true) (hn : n * 8 ≤ ERCSize rclass) :
    Call (AddIndexMemOp [readReg rclass r] base_reg disp dest_regs m)
      (callStore n (Value.read n)) R mem (accessAddr m (Arm.base R base_reg) disp)
      (.storeX n [r]) := by
  refine ⟨[], [], _, lifted_store (.inl h) _, rfl, rfl, ?_⟩
  rw [read_regValue_X h hn]
  rfl

theorem call_store_V (h : RegKind.Vector.allows rclass = true) (hn : n * 8 ≤ ERCSize rclass) :
    Call (AddIndexMemOp [readReg rclass r] base_reg disp dest_regs m)
      (callStore n (Value.read n)) R mem (accessAddr m (Arm.base R base_reg) disp)
      (.storeV n [r]) := by
  refine ⟨[], [], _, lifted_store (.inr h) _, rfl, rfl, ?_⟩
  rw [read_regValue_V h hn]
  rfl

theorem call_storeElem (h : RegKind.Vector.allows rclass = true) (hsize : ERCSize rclass = 128)
    {index : BitVec 64} {k : ℕ} (hk : index.toNat = k) :
    Call (AddIndexMemOp [readReg rclass r, .imm index] base_reg disp dest_regs m)
      (ST1_UNIT_POSTINDEX n) R mem (accessAddr m (Arm.base R base_reg) disp)
      (.storeElem n k r) := by
  refine ⟨[], [], _, lifted_storeElem (.inr h) _, rfl, rfl, ?_⟩
  rw [regValue_V h, hk]
  show store n mem _ (((Arm.V R r).setWidth (ERCSize rclass)).extractLsb' _ _) = _
  rw [hsize, BitVec.setWidth_eq]

theorem call_load_X (h : RegKind.General.allows rclass = true) (Rts : List (BitVec 5)) {erc : ERC}
    {f : BitVec (n * 8) → BitVec (ERCSize erc)} {extend : BitVec (n * 8) → BitVec 64}
    (hf : ∀ x, (f x).setWidth 64 = extend x) (hdisp : disp = disp') :
    Call (AddIndexMemOp (Rts.map (writeReg rclass)) base_reg disp dest_regs m)
      (callLoad n Rts.length erc f) R mem (accessAddr m (Arm.base R base_reg) disp')
      (.loadX n extend Rts) := by
  refine ⟨_, _, _, lifted_load (.inl h) Rts erc f, ?_, ?_, rfl⟩
  · have hgen : rclass = .RegW ∨ rclass = .RegX := by
      cases rclass <;> first | exact absurd h (by decide) | decide
    exact List.map_congr_left fun r _ => if_pos hgen
  · rw [List.map_map, hdisp]
    exact List.map_congr_left fun x _ => hf x

theorem call_load_V (h : RegKind.Vector.allows rclass = true) (Rts : List (BitVec 5)) {erc : ERC}
    {f : BitVec (n * 8) → BitVec (ERCSize erc)}
    (hf : ∀ x, (f x).setWidth 128 = x.setWidth 128) (hdisp : disp = disp') :
    Call (AddIndexMemOp (Rts.map (writeReg rclass)) base_reg disp dest_regs m)
      (callLoad n Rts.length erc f) R mem (accessAddr m (Arm.base R base_reg) disp')
      (.loadV n Rts) := by
  refine ⟨_, _, _, lifted_load (.inr h) Rts erc f, ?_, ?_, rfl⟩
  · have hne : ¬(rclass = .RegW ∨ rclass = .RegX) := by
      rintro (rfl | rfl) <;> exact absurd h (by decide)
    exact List.map_congr_left fun r _ => if_neg hne
  · rw [List.map_map, hdisp]
    exact List.map_congr_left fun x _ => hf x

end

theorem shiftLeft_mul (x : BitVec 64) (k : ℕ) : x <<< k = x * BitVec.ofNat 64 (2 ^ k) := by
  apply BitVec.eq_of_toNat_eq
  rw [BitVec.toNat_shiftLeft, BitVec.toNat_mul, BitVec.toNat_ofNat, Nat.shiftLeft_eq,
    Nat.mul_mod_mod]

/-- The index of an element, as a word and as a number. -/
theorem toNat_elemIndex (d : StructFields) (e : StructElem) :
    (d.index e).toNat = Arm.elemIndex d e := by
  have hall : ∀ e : StructElem, ∀ Q S : BitVec 1, ∀ size : BitVec 2,
      ((StructFields.mk Q S size 0#5 0#5).index e).toNat =
        Arm.elemIndex (StructFields.mk Q S size 0#5 0#5) e := by
    intro e
    cases e <;> decide
  have hindex : d.index e = (StructFields.mk d.Q d.S d.size 0#5 0#5).index e := by cases e <;> rfl
  rw [hindex, hall]
  cases e <;> rfl

/-- The bytes of the registers of a structure. -/
theorem total_num_bytes_eq (d : StructFields) (regs : ℕ) :
    d.total_num_bytes regs = BitVec.ofNat 64 (regs * Arm.datasizeBytes d) := by
  have hbytes : d.esize / 8 * (d.data_size / d.esize) = Arm.datasizeBytes d :=
    (by decide : ∀ Q : BitVec 1, ∀ size : BitVec 2,
      8 <<< size.toNat / 8 * ((if Q = 1#1 then 128 else 64) / 8 <<< size.toNat) =
        if Q = 1#1 then 16 else 8) d.Q d.size
  rw [StructFields.total_num_bytes, mul_comm _ regs, mul_assoc, hbytes]

namespace Indexed

variable {x86_64 : Bool} {inst : SemaInst} {R : RegFile} {mem : Memory} {m : Index}

/-- The address that the architecture accesses. -/
def addr (i : Indexed) (R : RegFile) : BitVec 64 :=
  accessAddr (Arm.index i) (Arm.base R (Arm.Rn i)) (Arm.indexOffset R i)

/-- Every store of a pair calls the function that stores it. -/
theorem call_STP (i : StorePair) (d : PairFields) (hi : (STP i m d).Supported x86_64)
    (h : (STP i m d).TryDecode x86_64 = some inst) :
    Call inst (i.isel x86_64) R mem ((STP i m d).addr R) (Arm.transferSTP d i) := by
  cases h
  cases i with
  | STP_32 => exact call_storePair_X rfl (le_refl 32) (shiftLeft_mul _ 2)
  | STP_64 => exact call_storePair_X rfl (le_refl 64) (shiftLeft_mul _ 3)
  | STP_S => exact call_storePair_V rfl (le_refl 32) (shiftLeft_mul _ 2)
  | STP_D => exact call_storePair_V rfl (le_refl 64) (shiftLeft_mul _ 3)
  | STP_Q =>
    cases hi
    exact call_storePair_V rfl (le_refl 128) (shiftLeft_mul _ 4)

/-- Every load of a pair calls the function that loads it. -/
theorem call_LDP (i : LoadPair) (d : PairFields) (h : (LDP i m d).TryDecode x86_64 = some inst) :
    Call inst i.isel R mem ((LDP i m d).addr R) (Arm.transferLDP d i) := by
  obtain ⟨-, h⟩ := option_ite h
  cases h
  cases i with
  | LDP_32 =>
    exact call_load_X rfl [d.Rt, d.Rt2] (fun _ => BitVec.setWidth_eq _) (shiftLeft_mul _ 2)
  | LDP_64 =>
    exact call_load_X rfl [d.Rt, d.Rt2] (fun _ => BitVec.setWidth_eq _) (shiftLeft_mul _ 3)
  | LDPSW_64 =>
    exact call_load_X rfl [d.Rt, d.Rt2] (fun _ => BitVec.setWidth_eq _) (shiftLeft_mul _ 2)
  | LDP_S =>
    exact call_load_V rfl [d.Rt, d.Rt2] (fun x => congrArg (BitVec.setWidth 128)
      (BitVec.setWidth_eq x)) (shiftLeft_mul _ 2)
  | LDP_D =>
    exact call_load_V rfl [d.Rt, d.Rt2] (fun x => congrArg (BitVec.setWidth 128)
      (BitVec.setWidth_eq x)) (shiftLeft_mul _ 3)
  | LDP_Q =>
    exact call_load_V (by cases x86_64 <;> rfl) [d.Rt, d.Rt2]
      (fun x => congrArg (BitVec.setWidth 128) (BitVec.setWidth_eq x)) (shiftLeft_mul _ 4)

/-- Every store calls the function that stores it. -/
theorem call_STR (i : StoreOne) (d : Imm9Fields) (h : (STR i m d).TryDecode x86_64 = some inst) :
    Call inst i.isel R mem ((STR i m d).addr R) (Arm.transferSTR d i) := by
  cases h
  cases i with
  | STR_32 => exact call_store_X rfl (le_refl 32)
  | STR_64 => exact call_store_X rfl (le_refl 64)
  | STR_B => exact call_store_V rfl (le_refl 8)
  | STR_H => exact call_store_V rfl (le_refl 16)
  | STR_S => exact call_store_V rfl (le_refl 32)
  | STR_D => exact call_store_V rfl (le_refl 64)
  | STR_Q => exact call_store_V (by cases x86_64 <;> rfl) (by cases x86_64 <;> exact le_refl 128)
  | STRB_32 => exact call_store_X rfl (by decide : 8 ≤ 32)
  | STRH_32 => exact call_store_X rfl (by decide : 16 ≤ 32)

/-- Every load calls the function that loads it. -/
theorem call_LDR (i : LoadOne) (d : Imm9Fields) (h : (LDR i m d).TryDecode x86_64 = some inst) :
    Call inst i.isel R mem ((LDR i m d).addr R) (Arm.transferLDR d i) := by
  cases h
  cases i with
  | LDR_32 => exact call_load_X rfl [d.Rt] (fun x => BitVec.setWidth_setWidth (by decide)) rfl
  | LDR_64 => exact call_load_X rfl [d.Rt] (fun x => BitVec.setWidth_eq _) rfl
  | LDRB_32 => exact call_load_X rfl [d.Rt] (fun x => BitVec.setWidth_setWidth (by decide)) rfl
  | LDRH_32 => exact call_load_X rfl [d.Rt] (fun x => BitVec.setWidth_setWidth (by decide)) rfl
  | LDRSB_32 => exact call_load_X rfl [d.Rt] (fun _ => rfl) rfl
  | LDRSB_64 => exact call_load_X rfl [d.Rt] (fun _ => BitVec.setWidth_eq _) rfl
  | LDRSH_32 => exact call_load_X rfl [d.Rt] (fun _ => rfl) rfl
  | LDRSH_64 => exact call_load_X rfl [d.Rt] (fun _ => BitVec.setWidth_eq _) rfl
  | LDRSW_64 => exact call_load_X rfl [d.Rt] (fun _ => BitVec.setWidth_eq _) rfl
  | LDR_S =>
    exact call_load_V rfl [d.Rt]
      (fun x => congrArg (BitVec.setWidth 128) (BitVec.setWidth_eq x)) rfl
  | LDR_D =>
    exact call_load_V rfl [d.Rt]
      (fun x => congrArg (BitVec.setWidth 128) (BitVec.setWidth_eq x)) rfl
  | LDR_Q =>
    exact call_load_V (by cases x86_64 <;> rfl) [d.Rt]
      (fun x => congrArg (BitVec.setWidth 128) (BitVec.setWidth_eq x)) rfl

/-- The load of a whole vector calls the function that loads it. -/
theorem call_LD1 (d : StructFields)
    (h : (LD1_ASISDLSEP_I1_I1 d).TryDecode x86_64 = some inst) :
    Call inst ((LD1_ASISDLSEP_I1_I1 d).isel x86_64) R mem ((LD1_ASISDLSEP_I1_I1 d).addr R)
      (.loadV (Arm.datasizeBytes d) [d.Rt]) := by
  obtain ⟨rclass, hclass, h⟩ := Option.bind_eq_some_iff.mp h
  obtain ⟨a, ha, rfl⟩ := Option.map_eq_some_iff.mp hclass
  cases h
  have hvector : RegKind.Vector.allows (a.regClass false) = true := by cases a <;> rfl
  have hdisp : d.total_num_bytes 1 = BitVec.ofNat 64 (Arm.datasizeBytes d) := by
    rw [total_num_bytes_eq, one_mul]
  have hbytes : a.lanes * a.esize / 8 = Arm.datasizeBytes d := by
    apply (by decide : ∀ Q : BitVec 1, ∀ size : BitVec 2, ∀ a ∈ ArrangementSpecifier
      (if Q = 1#1 then 128 else 64) (8 <<< size.toNat), a.lanes * a.esize / 8 =
        if Q = 1#1 then 16 else 8) d.Q d.size
    exact ha
  have hisel : (LD1_ASISDLSEP_I1_I1 d).isel x86_64 = LD1_SINGLE_POSTINDEX a := by
    simp only [isel, ha]
  rw [hisel, ← hbytes]
  refine call_load_V hvector [d.Rt] (fun x => ?_) hdisp
  cases a <;> exact congrArg (BitVec.setWidth 128) (BitVec.setWidth_eq x)

theorem call_of_operands_eq {inst' : SemaInst} {sema : Sema} {addr : BitVec 64} {t : Arm.Transfer}
    (h : Call inst sema R mem addr t) (hops : inst'.operands = inst.operands) :
    Call inst' sema R mem addr t := by
  obtain ⟨writes, results, mem', ⟨args, ws, hargs, hwrites, hflat, hcall⟩, hmoves⟩ := h
  refine ⟨writes, results, mem', ⟨args, ws, ?_, ?_, hflat, hcall⟩, hmoves⟩
  · rw [hops]
    exact hargs
  · rw [hops]
    exact hwrites

/-- The call of an instruction moves what the architecture moves. -/
theorem call (i : Indexed) (hi : i.Supported x86_64) (h : i.TryDecode x86_64 = some inst) :
    Call inst (i.isel x86_64) R mem (i.addr R) (Arm.transfer i) := by
  have hvector : ∀ e : StructElem, RegKind.Vector.allows e.rclass = true := by
    intro e
    cases e <;> rfl
  have hsize : ∀ e : StructElem, ERCSize e.rclass = 128 := by
    intro e
    cases e <;> rfl
  cases i with
  | STP i m d => exact call_STP i d hi h
  | LDP i m d => exact call_LDP i d h
  | STR i m d => exact call_STR i d h
  | LDR i m d => exact call_LDR i d h
  | ST1_ASISDLSEP_I2_I2 d => exact False.elim hi
  | LD1_ASISDLSEP_I1_I1 d => exact call_LD1 d h
  | ST1_ASISDLSOP_I e d =>
    cases h
    exact call_storeElem (hvector e) (hsize e) (toNat_elemIndex d e)
  | ST1_ASISDLSOP_R e d Rm hm =>
    cases h
    -- the access is the one of the immediate form
    have hcall : Call (AddIndexMemOp [readReg e.rclass d.Rt, .imm (d.index e)] d.Rn 0#64 [] .POST)
        (ST1_UNIT_POSTINDEX e.bytes) R mem (accessAddr .POST (Arm.base R d.Rn) 0#64)
        (.storeElem e.bytes (Arm.elemIndex d e) d.Rt) :=
      call_storeElem (hvector e) (hsize e) (toNat_elemIndex d e)
    exact call_of_operands_eq hcall rfl

end Indexed

/-! ### The results -/

/-- The results are stored one by one, unless a single one goes nowhere. -/
theorem storeResults_eq {indirectbr : Bool} {R : RegFile} {ers : List EcvReg} {vs : List Value}
    (hlen : ers.length = vs.length)
    (h : indirectbr = false ∨ ∀ er, ers = [er] → er.number ≠ IGNORE_WRITE_TO_XZR_ORDER) :
    storeResults indirectbr R ers vs = some (storeEach R ers vs) := by
  rcases ers with - | ⟨er, - | ⟨er', ers⟩⟩
  · exact if_pos hlen
  · obtain ⟨v, rfl⟩ := List.length_eq_one_iff.mp hlen.symm
    show (if er.number = IGNORE_WRITE_TO_XZR_ORDER then
      if indirectbr = true then none else some R else some (storeResult R er v)) =
        some (if er.number = IGNORE_WRITE_TO_XZR_ORDER then R else storeResult R er v)
    by_cases her : er.number = IGNORE_WRITE_TO_XZR_ORDER
    · have hbr : indirectbr ≠ true := by
        rintro rfl
        rcases h with h | h
        · exact nomatch h
        · exact h er rfl her
      rw [if_pos her, if_pos her, if_neg hbr]
    · rw [if_neg her, if_neg her]
  · exact if_pos hlen

theorem storeEach_X (extend : BitVec (n * 8) → BitVec 64) (Rts : List (BitVec 5)) :
    ∀ (vs : List Value) (xs : List (BitVec (n * 8))) (R : RegFile),
      (vs.map fun v => v.bits.setWidth 64) = xs.map extend →
        storeEach R (Rts.map destX) vs =
          (Rts.zip xs).foldl (fun R p => Arm.setX R p.1 (extend p.2)) R := by
  induction Rts with
  | nil => exact fun _ _ _ _ => rfl
  | cons r Rts ih =>
    intro vs xs R h
    rcases vs with - | ⟨v, vs⟩ <;> rcases xs with - | ⟨x, xs⟩
    · rfl
    · exact nomatch h
    · exact nomatch h
    · obtain ⟨hv, hvs⟩ := List.cons.inj h
      have hstep : (if (destX r).number = IGNORE_WRITE_TO_XZR_ORDER then R
          else storeResult R (destX r) v) = Arm.setX R r (extend x) := by
        by_cases hr : r = 31#5
        · rw [if_pos ((destX_number_iff r).mpr hr), Arm.setX, if_pos hr]
        · rw [if_neg (mt (destX_number_iff r).mp hr), storeResult_general R r v hr, ← hv]
      show storeEach (if (destX r).number = IGNORE_WRITE_TO_XZR_ORDER then R
        else storeResult R (destX r) v) (Rts.map destX) vs = _
      rw [hstep]
      exact ih vs xs _ hvs

theorem storeEach_V (Rts : List (BitVec 5)) :
    ∀ (vs : List Value) (xs : List (BitVec (n * 8))) (R : RegFile),
      vs.map Value.whole = xs.map (BitVec.setWidth 128) →
        storeEach R (Rts.map fun r => ⟨.Vector, r.toNat⟩) vs =
          (Rts.zip xs).foldl (fun R p => Arm.setV R p.1 (p.2.setWidth 128)) R := by
  induction Rts with
  | nil => exact fun _ _ _ _ => rfl
  | cons r Rts ih =>
    intro vs xs R h
    rcases vs with - | ⟨v, vs⟩ <;> rcases xs with - | ⟨x, xs⟩
    · rfl
    · exact nomatch h
    · exact nomatch h
    · obtain ⟨hv, hvs⟩ := List.cons.inj h
      have hr : r.toNat ≠ IGNORE_WRITE_TO_XZR_ORDER := by
        have hlt : r.toNat < 32 := r.isLt
        show r.toNat ≠ 39
        omega
      have hstep : (if r.toNat = IGNORE_WRITE_TO_XZR_ORDER then R
          else storeResult R ⟨.Vector, r.toNat⟩ v) = Arm.setV R r (x.setWidth 128) := by
        rw [if_neg hr, storeResult, castFromInst_eq, ← hv]
        exact congrArg (Function.update R _) (BitVec.setWidth_eq (v.bits.setWidth 128))
      show storeEach (if r.toNat = IGNORE_WRITE_TO_XZR_ORDER then R
        else storeResult R ⟨.Vector, r.toNat⟩ v) (Rts.map fun r => ⟨.Vector, r.toNat⟩) vs = _
      rw [hstep]
      exact ih vs xs _ hvs

/-- One register is loaded, and it is the zero register. -/
def Arm.Transfer.LoadsZero : Arm.Transfer → Prop
  | loadX _ _ [r] => r = 31#5
  | _ => False

section

variable {addr : BitVec 64} {R : RegFile} {mem mem' : Memory} {writes : List EcvReg}
  {results : List Value} {t : Arm.Transfer}

theorem Arm.Transfer.Moves.mem_eq (h : t.Moves addr R mem writes results mem') :
    mem' = (t.exec addr ⟨R, mem⟩).mem := by
  cases t <;> exact h.2.2

theorem Arm.Transfer.Moves.length_eq (h : t.Moves addr R mem writes results mem') :
    writes.length = results.length := by
  cases t with
  | storeX | storeV | storeElem =>
    obtain ⟨rfl, rfl, -⟩ := h
    rfl
  | loadX n extend Rts =>
    obtain ⟨rfl, hresults, -⟩ := h
    have hlen := congrArg List.length hresults
    rw [List.length_map, List.length_map, length_loadWords] at hlen
    rw [List.length_map, hlen]
  | loadV n Rts =>
    obtain ⟨rfl, hresults, -⟩ := h
    have hlen := congrArg List.length hresults
    rw [List.length_map, List.length_map, length_loadWords] at hlen
    rw [List.length_map, hlen]

/-- The results on any registers. -/
theorem Arm.Transfer.Moves.storeEach_eq (h : t.Moves addr R mem writes results mem')
    (R' : RegFile) : storeEach R' writes results = (t.exec addr ⟨R', mem⟩).regs := by
  cases t with
  | storeX | storeV | storeElem =>
    obtain ⟨rfl, rfl, -⟩ := h
    rfl
  | loadX n extend Rts =>
    obtain ⟨rfl, hresults, -⟩ := h
    exact storeEach_X extend Rts results _ R' hresults
  | loadV n Rts =>
    obtain ⟨rfl, hresults, -⟩ := h
    exact storeEach_V Rts results _ R' hresults

/-- The registers after the results are stored. -/
theorem Arm.Transfer.Moves.storeResults_eq {indirectbr : Bool}
    (h : t.Moves addr R mem writes results mem') (hzero : indirectbr = false ∨ ¬t.LoadsZero) :
    storeResults indirectbr R writes results = some (t.exec addr ⟨R, mem⟩).regs := by
  rw [← h.storeEach_eq R]
  refine AArch64.storeResults_eq h.length_eq (hzero.imp_right fun hzero er her => ?_)
  cases t with
  | storeX | storeV | storeElem => exact nomatch h.1.symm.trans her
  | loadX n extend Rts =>
    obtain ⟨r, rfl, rfl⟩ := List.map_eq_singleton_iff.mp (h.1.symm.trans her)
    exact mt (destX_number_iff r).mp hzero
  | loadV n Rts =>
    obtain ⟨r, -, rfl⟩ := List.map_eq_singleton_iff.mp (h.1.symm.trans her)
    have hlt : r.toNat < 32 := r.isLt
    show r.toNat ≠ 39
    omega

theorem Arm.Transfer.Moves.storeResults_zero (h : t.Moves addr R mem writes results mem')
    (hzero : t.LoadsZero) : AArch64.storeResults true R writes results = none := by
  have hlen := h.length_eq
  cases t with
  | loadX n extend Rts =>
    obtain ⟨rfl, -, -⟩ := h
    rcases Rts with - | ⟨r, - | ⟨r', Rts⟩⟩
    · exact False.elim hzero
    · obtain ⟨v, rfl⟩ := List.length_eq_one_iff.mp hlen.symm
      exact (storeResults_X R r true v).trans (if_pos ⟨hzero, rfl⟩)
    · exact False.elim hzero
  | storeX | storeV | storeElem | loadV => exact False.elim hzero

end

/-! ### The write-back -/

/-- The register that is added to the base. -/
def Indexed.index_reg : Indexed → Option (BitVec 5)
  | ST1_ASISDLSOP_R _ _ Rm _ => some Rm
  | _ => none

theorem Indexed.index_reg_ne (i : Indexed) : i.index_reg ≠ some 31#5 := by
  cases i with
  | ST1_ASISDLSOP_R e d Rm h => exact fun h31 => h (Option.some.inj h31)
  | STP | LDP | STR | LDR | ST1_ASISDLSEP_I2_I2 | LD1_ASISDLSEP_I1_I1 | ST1_ASISDLSOP_I =>
    exact nofun

/-- What an instruction adds to which base. -/
structure Indexed.WritesBack (i : Indexed) (inst : SemaInst) (u : IndexUpdate) : Prop where
  write_back : inst.write_back = some (some u)
  base_reg : u.base_reg = Arm.Rn i
  index_reg : u.index_reg = i.index_reg
  newBase : ∀ R, Arm.newBase R u = Arm.base R (Arm.Rn i) + Arm.indexOffset R i

/-- The base is updated unless it is loaded. -/
theorem updatedReg_eq {base_reg : BitVec 5} {dest_regs : List (BitVec 5)}
    (h : base_reg = 31#5 ∨ base_reg ∉ dest_regs) (index_reg : Option (BitVec 5))
    (disp : BitVec 64) :
    updatedReg base_reg index_reg disp dest_regs = some ⟨base_reg, index_reg, disp⟩ := by
  refine if_neg ?_
  rintro ⟨h31, hmem⟩
  exact h.elim h31 fun h => h hmem

theorem writesBack_AddIndexMemOp {i : Indexed} {operands : List SemaOperand} {disp : BitVec 64}
    {dest_regs : List (BitVec 5)} {m : Index}
    (hdest : Arm.Rn i = 31#5 ∨ Arm.Rn i ∉ dest_regs) (hdisp : ∀ R, Arm.indexOffset R i = disp)
    (hindex : i.index_reg = none) :
    ∃ u, i.WritesBack (AddIndexMemOp operands (Arm.Rn i) disp dest_regs m) u := by
  refine ⟨⟨Arm.Rn i, none, disp⟩, ?_, rfl, hindex.symm, fun R => ?_⟩
  · have hreg : (AddIndexMemOp operands (Arm.Rn i) disp dest_regs m).write_back =
        some (updatedReg (Arm.Rn i) none disp dest_regs) := by cases m <;> rfl
    rw [hreg, updatedReg_eq hdest]
  · rw [hdisp]
    exact BitVec.add_zero _

/-- A base that is spared is updated. -/
theorem Indexed.writesBack {x86_64 : Bool} {inst : SemaInst} (i : Indexed)
    (h : i.TryDecode x86_64 = some inst) (hspares : (Arm.transfer i).Spares (Arm.Rn i)) :
    ∃ u, i.WritesBack inst u := by
  have hnil : ∀ n : BitVec 5, n = 31#5 ∨ n ∉ ([] : List (BitVec 5)) := fun n => .inr nofun
  -- the stores load nothing over the base; of the loads this is assumed
  cases i with
  | STP i m d =>
    cases h
    have hbytes : (Arm.transferSTP d i).bytes = 2 ^ i.scale := by cases i <;> rfl
    refine writesBack_AddIndexMemOp (i := .STP i m d) (hnil _) (fun R => ?_) rfl
    show d.imm7.signExtend 64 * BitVec.ofNat 64 (Arm.transferSTP d i).bytes = _
    rw [hbytes, shiftLeft_mul]
  | LDP i m d =>
    obtain ⟨-, h⟩ := option_ite h
    cases h
    have hbytes : (Arm.transferLDP d i).bytes = 2 ^ i.scale := by cases i <;> rfl
    refine writesBack_AddIndexMemOp (i := .LDP i m d) ?_ (fun R => ?_) rfl
    · cases i <;> cases m <;> first | exact hnil _ | exact hspares
    · show d.imm7.signExtend 64 * BitVec.ofNat 64 (Arm.transferLDP d i).bytes = _
      rw [hbytes, shiftLeft_mul]
  | STR i m d =>
    cases h
    refine writesBack_AddIndexMemOp (i := .STR i m d) ?_ (fun _ => rfl) rfl
    cases i <;> first | exact hnil _ | exact hspares
  | LDR i m d =>
    cases h
    refine writesBack_AddIndexMemOp (i := .LDR i m d) ?_ (fun _ => rfl) rfl
    cases i <;> first | exact hnil _ | exact hspares
  | ST1_ASISDLSEP_I2_I2 d =>
    cases h
    exact writesBack_AddIndexMemOp (i := .ST1_ASISDLSEP_I2_I2 d) (hnil _)
      (fun _ => (total_num_bytes_eq d 2).symm) rfl
  | LD1_ASISDLSEP_I1_I1 d =>
    obtain ⟨rclass, -, h⟩ := Option.bind_eq_some_iff.mp h
    cases h
    refine writesBack_AddIndexMemOp (i := .LD1_ASISDLSEP_I1_I1 d) (hnil _) (fun _ => ?_) rfl
    rw [total_num_bytes_eq, one_mul]
    rfl
  | ST1_ASISDLSOP_I e d =>
    cases h
    exact writesBack_AddIndexMemOp (i := .ST1_ASISDLSOP_I e d) (hnil _) (fun _ => rfl) rfl
  | ST1_ASISDLSOP_R e d Rm hm =>
    cases h
    refine ⟨⟨d.Rn, some Rm, 0#64⟩, ?_, rfl, rfl, fun R => ?_⟩
    · exact congrArg some (updatedReg_eq (hnil _) _ _)
    · show Arm.base R d.Rn + 0#64 + Arm.X R Rm = _
      rw [BitVec.add_zero]
      rfl

/-! ### The unoptimised function -/

theorem Arm.base_eq (R : RegFile) (n : BitVec 5) : base R n = (R (baseReg n)).setWidth 64 := by
  unfold base baseReg
  by_cases h : n = 31#5
  · rw [if_pos h, if_pos h]
  · rw [if_neg h, if_neg h]

theorem Arm.setBase_eq (R : RegFile) (n : BitVec 5) (x : BitVec 64) :
    setBase R n x = Function.update R (baseReg n) (x.setWidth 128) := by
  unfold setBase baseReg
  by_cases h : n = 31#5
  · rw [if_pos h, if_pos h]
  · rw [if_neg h, if_neg h]

theorem baseReg_ne_general {Rn r : BitVec 5} (h : Rn = 31#5 ∨ Rn ≠ r) :
    baseReg Rn ≠ ⟨.General, r.toNat⟩ := by
  intro heq
  unfold baseReg at heq
  by_cases hn : Rn = 31#5
  · rw [if_pos hn] at heq
    exact nomatch (congrArg EcvReg.reg_kind heq : RegKind.Special = RegKind.General)
  · rw [if_neg hn] at heq
    exact h.resolve_left hn (BitVec.eq_of_toNat_eq (congrArg EcvReg.number heq))

theorem baseReg_ne_vector (Rn : BitVec 5) (k : ℕ) : baseReg Rn ≠ ⟨.Vector, k⟩ := by
  intro heq
  have hkind := congrArg EcvReg.reg_kind heq
  unfold baseReg at hkind
  by_cases hn : Rn = 31#5
  · rw [if_pos hn] at hkind
    exact nomatch (hkind : RegKind.Special = RegKind.Vector)
  · rw [if_neg hn] at hkind
    exact nomatch (hkind : RegKind.General = RegKind.Vector)

theorem Arm.base_setX {R : RegFile} {Rn r : BitVec 5} (h : Rn = 31#5 ∨ Rn ≠ r) (x : BitVec 64) :
    base (setX R r x) Rn = base R Rn := by
  unfold setX
  by_cases hr : r = 31#5
  · rw [if_pos hr]
  · rw [if_neg hr, base_eq, base_eq, Function.update_of_ne (baseReg_ne_general h)]

theorem Arm.base_setV {R : RegFile} {Rn r : BitVec 5} (x : BitVec 128) :
    base (setV R r x) Rn = base R Rn := by
  unfold setV
  rw [base_eq, base_eq, Function.update_of_ne (baseReg_ne_vector Rn _)]

/-- A base that is spared is the same after the access. -/
theorem Arm.Transfer.base_exec {t : Transfer} {Rn : BitVec 5} (hspares : t.Spares Rn)
    (addr : BitVec 64) (g : Guest) : base (t.exec addr g).regs Rn = base g.regs Rn := by
  cases t with
  | storeX | storeV | storeElem => rfl
  | loadX n extend Rts =>
    have hfold : ∀ (l : List (BitVec 5 × BitVec (n * 8))) (R : RegFile),
        (∀ p ∈ l, Rn = 31#5 ∨ Rn ≠ p.1) →
          base (l.foldl (fun R p => setX R p.1 (extend p.2)) R) Rn = base R Rn := by
      intro l
      induction l with
      | nil => exact fun _ _ => rfl
      | cons p l ih =>
        intro R h
        show base (l.foldl _ (setX R p.1 (extend p.2))) Rn = _
        rw [ih _ fun q hq => h q (.tail _ hq), base_setX (h p (.head _))]
    refine hfold _ _ fun p hp => hspares.imp_right fun hmem heq => hmem ?_
    rw [heq]
    exact (List.of_mem_zip hp).1
  | loadV n Rts =>
    have hfold : ∀ (l : List (BitVec 5 × BitVec (n * 8))) (R : RegFile),
        base (l.foldl (fun R p => setV R p.1 (p.2.setWidth _)) R) Rn = base R Rn := by
      intro l
      induction l with
      | nil => exact fun _ => rfl
      | cons p l ih => exact fun R => (ih _).trans (base_setV _)
    exact hfold _ _

/-- Only stores have an index. -/
theorem Arm.indexOffset_exec (i : Indexed) (addr : BitVec 64) (g : Guest) :
    indexOffset ((transfer i).exec addr g).regs i = indexOffset g.regs i := by
  cases i <;> rfl

/-- The program after a call, its results stored. -/
theorem exec_of_lifted {indirectbr : Bool} {inst : SemaInst} {sema : Sema} {R : RegFile}
    {mem mem' : Memory} {writes : List EcvReg} {results : List Value}
    (h : Lifted inst sema R mem writes results mem') :
    execInst indirectbr sema inst ⟨R, mem⟩ =
      (storeResults indirectbr R writes results).bind fun regs =>
        (storeUpdate regs inst.write_back).bind fun regs => some ⟨regs, mem'⟩ := by
  obtain ⟨args, ws, hargs, hwrites, rfl, hcall⟩ := h
  rw [execInst_eq (g := ⟨R, mem⟩) hargs hwrites, hcall]
  rfl

section

variable {x86_64 indirectbr : Bool} {i : Indexed} {inst : SemaInst}

theorem Indexed.addr_eq (i : Indexed) (R : RegFile) :
    i.addr R = if Arm.index i = .PRE then Arm.base R (Arm.Rn i) + Arm.indexOffset R i
      else Arm.base R (Arm.Rn i) := by
  unfold addr
  cases Arm.index i <;> rfl

theorem Arm.execIndexed_eq (i : Indexed) (g : Guest) :
    execIndexed i g =
      let moved := (transfer i).exec (i.addr g.regs) g
      ⟨setBase moved.regs (Rn i) (base g.regs (Rn i) + indexOffset g.regs i), moved.mem⟩ := by
  unfold execIndexed
  rw [Indexed.addr_eq]

/-- The instruction does what the architecture says. -/
theorem exec_indexed (hi : i.Supported x86_64) (h : i.TryDecode x86_64 = some inst)
    (hspares : (Arm.transfer i).Spares (Arm.Rn i))
    (hzero : indirectbr = false ∨ ¬(Arm.transfer i).LoadsZero) (g : Guest) :
    execInst indirectbr (i.isel x86_64) inst g = some (Arm.execIndexed i g) := by
  obtain ⟨R, mem⟩ := g
  obtain ⟨writes, results, mem', hlifted, hmoves⟩ :=
    (i.call hi h : Call inst (i.isel x86_64) R mem _ (Arm.transfer i))
  obtain ⟨u, hu⟩ := i.writesBack h hspares
  rw [exec_of_lifted hlifted, hmoves.storeResults_eq hzero, hu.write_back, Option.bind_some,
    storeUpdate_eq _ (hu.index_reg ▸ i.index_reg_ne), hu.newBase, hu.base_reg,
    Arm.Transfer.base_exec hspares, Arm.indexOffset_exec, hmoves.mem_eq, Arm.execIndexed_eq]
  rfl

/-! ### The instructions that go wrong -/

theorem mem_of_exec {sema : Sema} {R : RegFile} {mem mem' : Memory} {writes : List EcvReg}
    {results : List Value} {g : Guest} (h : Lifted inst sema R mem writes results mem')
    (hexec : execInst indirectbr sema inst ⟨R, mem⟩ = some g) : g.mem = mem' := by
  rw [exec_of_lifted h] at hexec
  obtain ⟨regs, -, hexec⟩ := Option.bind_eq_some_iff.mp hexec
  obtain ⟨regs', -, hexec⟩ := Option.bind_eq_some_iff.mp hexec
  cases hexec
  rfl

theorem call_of_exec {sema : Sema} {g g' : Guest} {args : List (List Arg)}
    (hargs : inst.operands.mapM (SemaOperand.args g.regs) = some args)
    (hexec : execInst indirectbr sema inst g = some g') :
    ∃ r, sema args.flatten g.mem = some r := by
  unfold execInst at hexec
  obtain ⟨args', hargs', hexec⟩ := Option.bind_eq_some_iff.mp hexec
  obtain ⟨writes, -, hexec⟩ := Option.bind_eq_some_iff.mp hexec
  obtain ⟨r, hr, -⟩ := Option.bind_eq_some_iff.mp hexec
  cases hargs.symm.trans hargs'
  exact ⟨r, hr⟩

/-- The registers and the memory on which a store of the low halves shows. -/
def Guest.ones : Guest := ⟨fun _ => BitVec.allOnes 128, fun _ => 0#8⟩

/-- The element that is stored on x86-64. -/
def Value.lowHalf (src : Value) : BitVec (16 * 8) := (src.bits.setWidth 64).setWidth _

/-- On x86-64 a stored pair of vectors loses its upper halves. -/
theorem exec_STP_Q {m : Index} {d : PairFields}
    (h : (Indexed.STP .STP_Q m d).TryDecode true = some inst) :
    execInst indirectbr (STP_Q_UPDATE_ADDR true) inst .ones ≠
      some (Arm.execIndexed (.STP .STP_Q m d) .ones) := by
  intro hexec
  cases h
  -- the upper halves are lost
  have hhalf : ∀ r, Value.lowHalf (regValue .Reg2D Guest.ones.regs r) = 0xffffffffffffffff#128 := by
    intro r
    rw [regValue_V rfl]
    exact (by decide : Value.lowHalf (.low .Reg2D (BitVec.allOnes 128)) = 0xffffffffffffffff#128)
  have hlifted : Lifted (AddIndexMemOp [readReg .Reg2D d.Rt, readReg .Reg2D d.Rt2] d.Rn
      (d.imm7.signExtend 64 <<< 4) [] m) (callStorePair 16 Value.lowHalf) Guest.ones.regs
      Guest.ones.mem [] [] (storeWords 16 Guest.ones.mem
        (accessAddr m (Arm.base Guest.ones.regs d.Rn) (d.imm7.signExtend 64 <<< 4))
        [Value.lowHalf (regValue .Reg2D Guest.ones.regs d.Rt),
          Value.lowHalf (regValue .Reg2D Guest.ones.regs d.Rt2)]) := lifted_storePair (.inr rfl) _
  rw [hhalf, hhalf] at hlifted
  have hmem := mem_of_exec hlifted hexec
  rw [Arm.execIndexed_eq, shiftLeft_mul] at hmem
  have hwords : [(BitVec.allOnes 128).setWidth (16 * 8), (BitVec.allOnes 128).setWidth (16 * 8)] =
      [0xffffffffffffffff#128, 0xffffffffffffffff#128] :=
    storeWords_inj (by decide : 16 * 2 ≤ 2 ^ 64) rfl hmem
  exact absurd (List.cons.inj hwords).1 (by decide)

/-- A vector of two registers is never read. -/
theorem exec_ST1_I2_I2 {d : StructFields} {g g' : Guest}
    (h : (Indexed.ST1_ASISDLSEP_I2_I2 d).TryDecode x86_64 = some inst) :
    execInst indirectbr ((Indexed.ST1_ASISDLSEP_I2_I2 d).isel x86_64) inst g ≠ some g' := by
  intro hexec
  cases h
  have hargs : (AddIndexMemOp [writeReg (if d.Q = 1#1 then K_REG_Q x86_64 else .RegD) d.Rt,
      writeReg (if d.Q = 1#1 then K_REG_Q x86_64 else .RegD) (d.Rt + 1#5)] d.Rn
      (d.total_num_bytes 2) [] .POST).operands.mapM (SemaOperand.args g.regs) =
        some [[], [], [.word (Arm.base g.regs d.Rn + 0#64)]] := by
    simp [AddIndexMemOp, writeReg, args_address]
  obtain ⟨r, hr⟩ := call_of_exec hargs hexec
  have hnone : (Indexed.ST1_ASISDLSEP_I2_I2 d).isel x86_64
      [.word (Arm.base g.regs d.Rn + 0#64)] g.mem = none := by
    show (if d.Q = 1#1 then ST1_PAIR_POSTINDEX 16 else ST1_PAIR_POSTINDEX 8) _ _ = none
    by_cases hq : d.Q = 1#1
    · rw [if_pos hq]
      rfl
    · rw [if_neg hq]
      rfl
  exact nomatch hnone.symm.trans hr

/-- A single load to a zero register ends the lifter in a function with an indirect branch. -/
theorem exec_loadsZero {g g' : Guest} (hi : i.Supported x86_64)
    (h : i.TryDecode x86_64 = some inst) (hzero : (Arm.transfer i).LoadsZero) :
    execInst true (i.isel x86_64) inst g ≠ some g' := by
  intro hexec
  obtain ⟨R, mem⟩ := g
  obtain ⟨writes, results, mem', hlifted, hmoves⟩ :=
    (i.call hi h : Call inst (i.isel x86_64) R mem _ (Arm.transfer i))
  rw [exec_of_lifted hlifted, hmoves.storeResults_zero hzero] at hexec
  exact nomatch hexec

end

/-- A decoded instruction whose base is not one of the general registers it moves. -/
structure IndexedInst (x86_64 : Bool) where
  access : Indexed
  inst : SemaInst
  decoded : access.TryDecode x86_64 = some inst
  spares : (Arm.transfer access).Spares (Arm.Rn access)

/-- The instruction is right in a function whose results are stored one by one, on every state. -/
theorem exec_indexed_iff {x86_64 : Bool} (indirectbr : Bool) (i : IndexedInst x86_64) :
    (∀ g, execInst indirectbr (i.access.isel x86_64) i.inst g =
        some (Arm.execIndexed i.access g)) ↔
      i.access.Supported x86_64 ∧ (indirectbr = false ∨ ¬(Arm.transfer i.access).LoadsZero) := by
  obtain ⟨access, inst, decoded, spares⟩ := i
  show (∀ g, execInst indirectbr (access.isel x86_64) inst g = some (Arm.execIndexed access g)) ↔
    access.Supported x86_64 ∧ (indirectbr = false ∨ ¬(Arm.transfer access).LoadsZero)
  constructor
  · intro h
    have hi : access.Supported x86_64 := by
      -- where it is not supported, some state shows the difference
      by_contra hi
      rcases access with ⟨i, m, d⟩ | ⟨i, m, d⟩ | ⟨i, m, d⟩ | ⟨i, m, d⟩ | d | d | ⟨e, d⟩ |
        ⟨e, d, Rm, hm⟩
      case STP =>
        cases i <;> try exact hi trivial
        cases x86_64 with
        | false => exact hi rfl
        | true => exact exec_STP_Q decoded (h _)
      case ST1_ASISDLSEP_I2_I2 => exact exec_ST1_I2_I2 decoded (h .ones)
      all_goals exact hi trivial
    refine ⟨hi, ?_⟩
    cases indirectbr with
    | false => exact .inl rfl
    | true => exact .inr fun hzero => exec_loadsZero hi decoded hzero (h .ones)
  · rintro ⟨hi, hzero⟩ g
    exact exec_indexed hi decoded spares hzero g

end Elfconv.AArch64
