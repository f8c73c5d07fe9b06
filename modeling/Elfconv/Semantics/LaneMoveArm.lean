/-
Elfconv/Semantics/LaneMoveArm.lean

What the architecture says of the instructions that move lanes, and when the code does the same.

`followsArm_moves_iff` gives the condition.  Insertions and moves into general registers are right.
`EXT` takes the bytes of its sources in the wrong order, `FMOV` to the upper half writes the lower
one, the second source by element is read by four of the five bits of its number, and an index of
the upper half does not exist for the forms of 64 bits, whose sources are read by the class of the
destination.
-/
import Elfconv.Semantics.LaneArm
import Elfconv.Semantics.LaneMove

namespace Elfconv.AArch64

open Lanes

variable {n w count : ℕ}

/-! ### The architecture -/

/-- The elements by their number, with their width. -/
def Elem (a : Arrangement) (reg : BitVec 128) (i : ℕ) : BitVec a.esize :=
  reg.extractLsb' (a.esize * i) a.esize

/-- A byte of a register. -/
def byte (reg : BitVec 128) (i : ℕ) : BitVec 8 := reg.extractLsb' (8 * i) 8

namespace Arm

/-- `LowestSetBit`, of an immediate that has a bit set below its top. -/
def elementSize (imm5 : BitVec 5) : BitVec 2 :=
  if imm5.getLsbD 0 then 0#2
  else if imm5.getLsbD 1 then 1#2
  else if imm5.getLsbD 2 then 2#2
  else 3#2

/-- The index stands above the lowest bit that is set. -/
def elementIndex (imm5 : BitVec 5) : ℕ := imm5.toNat >>> ((elementSize imm5).toNat + 1)

/-- The register with one of its elements replaced. -/
def setElem (a : Arrangement) (reg : BitVec 128) (i : ℕ) (x : BitVec a.esize) : BitVec 128 :=
  zeroExtended fun e : Fin a.lanes => if e.val = i then x else Elem a reg e

/-- The bytes from an index on of the second operand above the first. -/
def ext (a : Arrangement) (operand1 operand2 : BitVec 128) (index : ℕ) : BitVec 128 :=
  let concat := operand2.setWidth (a.lanes * 8) ++ operand1.setWidth (a.lanes * 8)
  (concat.extractLsb' (8 * index) (a.lanes * 8)).setWidth 128

/-- The arrangement of the forms by element. -/
def byElement (d : ElemFields) : Arrangement := arrangement d.Q (if d.sz = 0#1 then 2#2 else 3#2)

/-- `H:L` for words, `H` for double words. -/
def byElementIndex (d : ElemFields) : ℕ :=
  if d.sz = 0#1 then 2 * d.H.toNat + d.L.toNat else d.H.toNat

/-- `M:Rm` -/
def byElementRm (d : ElemFields) : BitVec 5 := d.M ++ d.Rm

/-- What the registers are after an instruction.  A multiplication and an addition are taken as the
code takes them, one after the other. -/
def execMove (fp : FloatOps) (i : LaneMove) (R : RegFile) : RegFile :=
  match i with
  | .EXT_ASIMDEXT_ONLY Q imm4 Rm Rn Rd =>
      setV R Rd (ext (arrangement Q 0#2) (V R Rn) (V R Rm) imm4.toNat)
  | .DUP_ASIMDINS_DV_V Q imm5 Rn Rd =>
      let a := arrangement Q (elementSize imm5)
      setV R Rd (zeroExtended fun _ : Fin a.lanes => Elem a (V R Rn) (elementIndex imm5))
  | .FMUL_ASIMDELEM_R_SD d =>
      let a := byElement d
      setV R d.Rd (zeroExtended fun e : Fin a.lanes => fp.FMul a.esize (Elem a (V R d.Rn) e)
        (Elem a (V R (byElementRm d)) (byElementIndex d)))
  | .FMLA_ASIMDELEM_R_SD d =>
      let a := byElement d
      setV R d.Rd (zeroExtended fun e : Fin a.lanes => fp.FAdd a.esize (Elem a (V R d.Rd) e)
        (fp.FMul a.esize (Elem a (V R d.Rn) e)
          (Elem a (V R (byElementRm d)) (byElementIndex d))))
  | .INS_ASIMDINS_IR_R imm5 Rn Rd =>
      let a := arrangement 1#1 (elementSize imm5)
      setV R Rd (setElem a (V R Rd) (elementIndex imm5) ((X R Rn).setWidth a.esize))
  | .MOV_INS_ASIMDINS_IV_V imm5 imm4 Rn Rd =>
      let a := arrangement 1#1 (elementSize imm5)
      setV R Rd (setElem a (V R Rd) (elementIndex imm5)
        (Elem a (V R Rn) (imm4.toNat >>> (elementSize imm5).toNat)))
  | .FMOV_V64I_FLOAT2INT Rn Rd => setV R Rd (X R Rn ++ (V R Rd).setWidth 64 : BitVec (64 + 64))
  | .UMOV_ASIMDINS _ imm5 Rn Rd =>
      let a := arrangement 1#1 (elementSize imm5)
      setX R Rd ((Elem a (V R Rn) (elementIndex imm5)).setWidth 64)
  | .SMOV_ASIMDINS Q imm5 Rn Rd =>
      let a := arrangement 1#1 (elementSize imm5)
      let datasize := if Q = 1#1 then 64 else 32
      setX R Rd (((Elem a (V R Rn) (elementIndex imm5)).signExtend datasize).setWidth 64)

end Arm

namespace LaneMove

/-- What the architecture does not reserve. -/
def Allocated : LaneMove → Prop
  | .EXT_ASIMDEXT_ONLY Q imm4 .. => Q = 1#1 ∨ imm4.toNat < 8
  | .DUP_ASIMDINS_DV_V Q imm5 .. =>
      imm5.setWidth 4 ≠ 0#4 ∧ (Q = 1#1 ∨ Arm.elementSize imm5 ≠ 3#2)
  | .FMUL_ASIMDELEM_R_SD d | .FMLA_ASIMDELEM_R_SD d => d.sz = 0#1 ∨ d.L = 0#1 ∧ d.Q = 1#1
  | .INS_ASIMDINS_IR_R imm5 .. | .MOV_INS_ASIMDINS_IV_V imm5 .. => imm5.setWidth 4 ≠ 0#4
  | .FMOV_V64I_FLOAT2INT .. => True
  | .UMOV_ASIMDINS Q imm5 .. =>
      imm5.setWidth 4 ≠ 0#4 ∧ (Q = 1#1 ↔ Arm.elementSize imm5 = 3#2)
  | .SMOV_ASIMDINS Q imm5 .. =>
      imm5.setWidth 4 ≠ 0#4 ∧ Arm.elementSize imm5 ≠ 3#2 ∧
        (Arm.elementSize imm5 = 2#2 → Q = 1#1)

/-- The code does what the architecture says. -/
def FollowsArm (indirectbr : Bool) (g : Guest) (i : LaneMove) : Prop :=
  ∀ fp, i.exec fp indirectbr g = some (some ⟨Arm.execMove fp i g.regs, g.mem⟩)

/-- Byte `m` of the first source equals byte `count - 1 - m`, for every `m` from `index` on.  Byte
`j` of the second, for every `j` below, equals byte `2 * index - 1 - j`, or zero where that is not
below `count`. -/
def Mirrored (count index : ℕ) (vn vm : BitVec 128) : Prop :=
  (∀ k, k + index < count → byte vn (k + index) = byte vn (count - 1 - k - index)) ∧
    ∀ j < index, byte vm j = if 2 * index - 1 - j < count then byte vm (2 * index - 1 - j) else 0#8

/-- The index is in the source as it is read, and so is the source itself. -/
def ElementRead (R : RegFile) (d : ElemFields) : Prop :=
  (d.Q = 1#1 ∨ d.H = 0#1) ∧ (d.M = 0#1 ∨
    Elem (Arm.byElement d) (Arm.V R (d.Rm.setWidth 5)) (Arm.byElementIndex d) =
      Elem (Arm.byElement d) (Arm.V R (Arm.byElementRm d)) (Arm.byElementIndex d))

/-- When the code is right. -/
def Right (indirectbr : Bool) (R : RegFile) : LaneMove → Prop
  | .EXT_ASIMDEXT_ONLY Q imm4 Rm Rn _ =>
      Mirrored (if Q = 1#1 then 16 else 8) imm4.toNat (Arm.V R Rn) (Arm.V R Rm)
  | .DUP_ASIMDINS_DV_V Q imm5 .. => Q = 1#1 ∨ imm5.getLsbD 4 = false
  | .FMUL_ASIMDELEM_R_SD d | .FMLA_ASIMDELEM_R_SD d => ElementRead R d
  | .INS_ASIMDINS_IR_R .. | .MOV_INS_ASIMDINS_IV_V .. => True
  | .FMOV_V64I_FLOAT2INT Rn Rd => Arm.X R Rn = 0#64 ∧ (Arm.V R Rd).setWidth 64 = 0#64
  | .UMOV_ASIMDINS _ _ _ Rd | .SMOV_ASIMDINS _ _ _ Rd => Rd ≠ 31#5 ∨ indirectbr = false

end LaneMove

/-! ### Semantics functions -/

/-- What `EXT` leaves in a place. -/
def extByte (count lsb : ℕ) (vn vm : BitVec 128) (k : ℕ) : BitVec 8 :=
  if k + lsb < count then byte vn (count - 1 - k - lsb)
  else if k < count ∧ lsb ≤ k then byte vm (count - 1 - k + lsb)
  else 0#8

/-- Two loops fill the result from the top, byte by byte. -/
theorem EXT_eq (hcount : count ≤ 16) (vn vm : BitVec 128) (lsb : ℕ) :
    EXT count (Vec.ofBits count vn) (Vec.ofBits count vm) lsb =
      some fun k : Fin 16 => extByte count lsb vn vm k := by
  -- the loop over the second source comes first, and both fill the result from the top
  obtain ⟨r, hr, hlanes, hrest⟩ := forLoop_scatter (n := 16) (w := 8) (Nat.sub_zero (count - lsb))
    (p := fun i => count - 1 - i)
    (e := fun i => Vec.get (Vec.ofBits count vm : Vec count 8) (i + lsb))
    (f := fun k => byte vm (k + lsb)) (v := fun _ => 0#8) (fun k hk => by omega)
    (fun j k hjk hk => by omega)
    (fun k hk => by rw [Nat.zero_add]; exact Vec.get_ofBits vm (by omega))
  obtain ⟨s, hs, hslanes, hsrest⟩ := forLoop_scatter (n := 16) (w := 8)
    (rfl : count - lsb = count - lsb)
    (p := fun i => count - 1 - i)
    (e := fun i => Vec.get (Vec.ofBits count vn : Vec count 8) (i - lsb))
    (f := fun k => byte vn k) (v := r) (fun k hk => by omega)
    (fun j k hjk hk => by omega)
    (fun k hk => by rw [Nat.add_sub_cancel_left]; exact Vec.get_ofBits vn (by omega))
  have hloops : EXT count (Vec.ofBits count vn) (Vec.ofBits count vm) lsb = some s := by
    rw [EXT, hr]
    exact hs
  rw [hloops, Option.some.injEq]
  apply Vec.ext_get
  intro k hk
  rw [Vec.get_of_lt (fun k : Fin 16 => extByte count lsb vn vm k) hk]
  show _ = some (extByte count lsb vn vm k)
  unfold extByte
  -- a byte is written by the second loop, by the first alone, or by none
  by_cases hlow : k + lsb < count
  · have h := hslanes (count - 1 - k - lsb) (by omega)
    rw [if_pos hlow, ← h]
    apply congrArg
    omega
  · rw [if_neg hlow, hsrest k fun j hj => by omega]
    by_cases hhigh : k < count ∧ lsb ≤ k
    · have h := hlanes (count - 1 - k) (by omega)
      rw [if_pos hhigh, ← h]
      apply congrArg
      omega
    · rw [if_neg hhigh, hrest k fun j hj => by omega]
      exact Vec.get_of_lt _ hk

/-- The loop copies the element to all lanes. -/
theorem DUP_DV_eq (src : Vec n w) (index : ℕ) :
    DUP_DV src index = (Vec.get src index).map fun x => fun _ => x := by
  unfold DUP_DV
  cases Vec.get src index with
  | none => rfl
  | some x => exact forLoop_fill (Nat.sub_zero n) _ _ (fun k _ => Nat.zero_add k) fun _ => rfl

/-- The loop multiplies every lane by the element. -/
theorem FMULID_V_eq (fp : FloatOps) (src1 src2 : Vec n w) (index : ℕ) :
    FMULID_V fp src1 src2 index =
      (Vec.get src2 index).map fun y => fun e => fp.FMul w (src1 e) y := by
  unfold FMULID_V
  cases Vec.get src2 index with
  | none => rfl
  | some y =>
    apply forLoop_fill (Nat.sub_zero n) _ _ fun k _ => Nat.zero_add k
    intro k
    rw [Nat.zero_add, Vec.get_fin]
    rfl

/-- The two loops multiply first and add then. -/
theorem FMLA_ELEM_V_eq (fp : FloatOps) (hn : 0 < n) (dst_src src1 src2 : Vec n w) (index : ℕ) :
    FMLA_ELEM_V fp dst_src src1 src2 index =
      (Vec.get src2 index).map fun y => fun e => fp.FAdd w (dst_src e) (fp.FMul w (src1 e) y) := by
  unfold FMLA_ELEM_V
  cases Vec.get src2 index with
  -- an element outside of the vector fails the first loop at once
  | none =>
    have hfirst : forLoop 0 n 1 (fun i (res : Vec n w) => Vec.assign res i (do
        let x ← Vec.get src1 i
        let y ← none
        return fp.FMul w x y)) (fun _ => 0#w) = none := by
      apply forLoop_none hn
      rw [Vec.get_of_lt src1 hn]
      rfl
    rw [hfirst]
    rfl
  | some y =>
    have hfirst : forLoop 0 n 1 (fun i (res : Vec n w) => Vec.assign res i (do
        let x ← Vec.get src1 i
        let y ← some y
        return fp.FMul w x y)) (fun _ => 0#w) = some fun e => fp.FMul w (src1 e) y := by
      apply forLoop_fill (Nat.sub_zero n) _ _ fun k _ => Nat.zero_add k
      intro k
      rw [Nat.zero_add, Vec.get_fin]
      rfl
    rw [hfirst]
    apply forLoop_lanes (f := fun e x => fp.FAdd w (dst_src e) x)
    intro e v
    rw [Vec.get_fin, Vec.get_fin]
    rfl

/-! ### Running an instruction -/

section

variable {fp : FloatOps} {indirectbr : Bool} {g : Guest} {i : LaneMove}
  {suffix : Option Arrangement}
variable {ops : List SemaOperand} {args : List (List Arg)} {writes : List (List EcvReg)}
  {Rd : BitVec 5}

/-- An instruction with a vector destination. -/
theorem exec_V (hdec : i.TryDecode = some (some (.of suffix ops)))
    (hargs : ops.mapM (SemaOperand.args g.regs) = some args)
    (hwrites : ops.mapM SemaOperand.writes = some writes)
    (hRd : writes.flatten = [⟨.Vector, Rd.toNat⟩]) :
    i.exec fp indirectbr g = (i.isel fp suffix args.flatten).map fun v =>
      some ⟨Arm.setV g.regs Rd v.whole, g.mem⟩ := by
  have hinst : execInst indirectbr (i.sema fp suffix) ⟨ops, none⟩ g =
      (i.isel fp suffix args.flatten).map fun v => ⟨Arm.setV g.regs Rd v.whole, g.mem⟩ := by
    rw [execInst_eq hargs hwrites, LaneMove.sema]
    cases i.isel fp suffix args.flatten with
    | none => rfl
    | some v =>
      show (storeResults indirectbr g.regs writes.flatten [v]).bind _ = _
      rw [hRd, storeResults_V]
      rfl
  unfold LaneMove.exec
  rw [hdec]
  show (execInst indirectbr (i.sema fp suffix) ⟨ops, none⟩ g).bind _ = _
  rw [hinst]
  cases i.isel fp suffix args.flatten <;> rfl

/-- An instruction that writes one vector writes what its function returns. -/
theorem exec_V_of_isel (hdec : i.TryDecode = some (some (.of suffix ops)))
    (hargs : ops.mapM (SemaOperand.args g.regs) = some args)
    (hwrites : ops.mapM SemaOperand.writes = some writes)
    (hRd : writes.flatten = [⟨.Vector, Rd.toNat⟩]) {v : Value} {x : BitVec 128}
    (hisel : i.isel fp suffix args.flatten = some v) (hv : v.whole = x) :
    i.exec fp indirectbr g = some (some ⟨Arm.setV g.regs Rd x, g.mem⟩) := by
  rw [exec_V hdec hargs hwrites hRd, hisel, ← hv]
  rfl

/-- An instruction with a general destination. -/
theorem exec_X (hdec : i.TryDecode = some (some (.of suffix ops)))
    (hargs : ops.mapM (SemaOperand.args g.regs) = some args)
    (hwrites : ops.mapM SemaOperand.writes = some writes) (hRd : writes.flatten = [destX Rd]) :
    i.exec fp indirectbr g = (i.isel fp suffix args.flatten).bind fun v =>
      if Rd = 31#5 ∧ indirectbr = true then none
      else some (some ⟨Arm.setX g.regs Rd (v.bits.setWidth 64), g.mem⟩) := by
  have hinst : execInst indirectbr (i.sema fp suffix) ⟨ops, none⟩ g =
      (i.isel fp suffix args.flatten).bind fun v =>
        if Rd = 31#5 ∧ indirectbr = true then none
        else some ⟨Arm.setX g.regs Rd (v.bits.setWidth 64), g.mem⟩ := by
    rw [execInst_eq hargs hwrites, LaneMove.sema]
    cases i.isel fp suffix args.flatten with
    | none => rfl
    | some v =>
      show (storeResults indirectbr g.regs writes.flatten [v]).bind _ = _
      rw [hRd, storeResults_X]
      split_ifs <;> rfl
  unfold LaneMove.exec
  rw [hdec]
  show (execInst indirectbr (i.sema fp suffix) ⟨ops, none⟩ g).bind _ = _
  rw [hinst]
  cases i.isel fp suffix args.flatten with
  | none => rfl
  | some v =>
    show Option.bind (if Rd = 31#5 ∧ indirectbr = true then none else some _) _ = ite _ _ _
    split_ifs <;> rfl

theorem allows_regClass (a : Arrangement) (is_float : Bool) :
    RegKind.Vector.allows (a.regClass is_float) = true := by
  cases a <;> cases is_float <;> rfl

/-- The source operands are those of a full register, or of its low half. -/
theorem vecOf_regClass (a : Arrangement) (is_float : Bool) (reg : BitVec 128) :
    vecOf a.lanes a.esize (.low (a.regClass is_float) reg) = Vec.ofBits a.lanes reg :=
  vecOf_low reg (a.lanes_mul_esize is_float).le

theorem whole_regClass (a : Arrangement) (is_float : Bool) (v : Vec a.lanes a.esize) :
    (vecValue (a.regClass is_float) v).whole = Arm.zeroExtended v :=
  whole_vecValue _ v (a.lanes_mul_esize is_float).le

theorem get_Elem (a : Arrangement) (reg : BitVec 128) {i : ℕ} (h : i < a.lanes) :
    Vec.get (Vec.ofBits a.lanes reg : Vec a.lanes a.esize) i = some (Elem a reg i) :=
  Vec.get_ofBits reg h

end

/-! ### Bytes of two sources -/

/-- What the architecture leaves in a place. -/
def armByte (count lsb : ℕ) (vn vm : BitVec 128) (k : ℕ) : BitVec 8 :=
  if k + lsb < count then byte vn (k + lsb)
  else if k < count then byte vm (k + lsb - count)
  else 0#8

/-- The bytes of the architecture's result. -/
theorem ext_eq {lsb : ℕ} (hlsb : lsb ≤ count) (vn vm : BitVec 128) :
    ((vm.setWidth (count * 8) ++ vn.setWidth (count * 8)).extractLsb' (8 * lsb)
      (count * 8)).setWidth 128 = Arm.zeroExtended fun k : Fin 16 => armByte count lsb vn vm k := by
  apply BitVec.eq_of_getLsbD_eq
  intro p hp
  obtain ⟨k, j, hj, rfl⟩ := Vec.exists_lane (n := 16) (w := 8) hp
  rw [BitVec.getLsbD_setWidth, BitVec.getLsbD_extractLsb', Arm.zeroExtended,
    BitVec.getLsbD_setWidth, Vec.getLsbD_bits _ k hj, decide_eq_true hp, Bool.true_and,
    Bool.true_and]
  unfold armByte
  by_cases hk : k.val < count
  · have hplace : 8 * lsb + (8 * k.val + j) = 8 * (k + lsb) + j := by omega
    have hbyte := congrArg (fun x => x.getLsbD j)
      (extract_concat vn vm (w := 8) (by omega : k.val + lsb < count + count))
    simp only [BitVec.getLsbD_extractLsb', hj, decide_true, Bool.true_and] at hbyte
    rw [decide_eq_true (by omega : 8 * k.val + j < count * 8), Bool.true_and, hplace, hbyte]
    by_cases hlow : k.val + lsb < count
    · rw [dif_pos hlow, if_pos hlow]
      rfl
    · rw [dif_neg hlow, if_neg hlow, if_pos hk]
      rfl
  · rw [decide_eq_false (by omega : ¬ 8 * k.val + j < count * 8), if_neg (by omega), if_neg hk,
      Bool.false_and, BitVec.getLsbD_zero]

/-- The bytes agree exactly if the operands mirror each other. -/
theorem mirrored_iff (hcount : count ≤ 16) {lsb : ℕ} (hlsb : lsb ≤ count) (vn vm : BitVec 128) :
    (∀ k : Fin 16, extByte count lsb vn vm k = armByte count lsb vn vm k) ↔
      LaneMove.Mirrored count lsb vn vm := by
  constructor
  · intro h
    constructor
    · intro k hk
      have hbyte := h ⟨k, by omega⟩
      unfold extByte armByte at hbyte
      rw [Fin.val_mk, if_pos hk, if_pos hk] at hbyte
      exact hbyte.symm
    -- byte `j` of `Vm` goes to byte `count - lsb + j` of the result
    · intro j hj
      have hbyte := h ⟨j + count - lsb, by omega⟩
      have htop : ¬ j + count - lsb + lsb < count := by omega
      have hlt : j + count - lsb < count := by omega
      have hplace : count - 1 - (j + count - lsb) + lsb = 2 * lsb - 1 - j := by omega
      have hback : j + count - lsb + lsb - count = j := by omega
      unfold extByte armByte at hbyte
      rw [Fin.val_mk, if_neg htop, if_neg htop, if_pos hlt, hplace, hback] at hbyte
      rw [← hbyte]
      by_cases hin : 2 * lsb - 1 - j < count
      · rw [if_pos hin, if_pos ⟨hlt, by omega⟩]
      · rw [if_neg hin, if_neg fun h => hin (by omega)]
  · rintro ⟨hlow, hhigh⟩ k
    unfold extByte armByte
    by_cases hk : k.val + lsb < count
    · rw [if_pos hk, if_pos hk, hlow k hk]
    · rw [if_neg hk, if_neg hk]
      by_cases hlt : k.val < count
      · rw [if_pos hlt, hhigh (k + lsb - count) (by omega)]
        have hplace : count - 1 - k.val + lsb = 2 * lsb - 1 - (k + lsb - count) := by omega
        by_cases hle : lsb ≤ k.val
        · rw [if_pos ⟨hlt, hle⟩, if_pos (by omega), hplace]
        · rw [if_neg (fun h => hle h.2), if_neg (by omega)]
      · rw [if_neg hlt, if_neg fun h => hlt h.1]

/-! ### One instruction after the other -/

section

variable {fp : FloatOps} {indirectbr : Bool} {g : Guest} {R : RegFile}

theorem setV_inj {Rd : BitVec 5} {x y : BitVec 128} :
    Arm.setV R Rd x = Arm.setV R Rd y ↔ x = y :=
  (Function.update_injective R _).eq_iff

theorem exec_EXT {a : Arrangement} (ha : a = .B8 ∨ a = .B16) {Q : BitVec 1} {imm4 : BitVec 4}
    {Rm Rn Rd : BitVec 5} (hdec : (LaneMove.EXT_ASIMDEXT_ONLY Q imm4 Rm Rn Rd).TryDecode =
      some (some (.of (some a) [valueReg .kActionWrite (a.regClass false) Rd,
        valueReg .kActionRead (a.regClass false) Rn, valueReg .kActionRead (a.regClass false) Rm,
        .imm (imm4.setWidth 64)]))) :
    (LaneMove.EXT_ASIMDEXT_ONLY Q imm4 Rm Rn Rd).exec fp indirectbr g =
      some (some ⟨Arm.setV g.regs Rd (Arm.zeroExtended fun k : Fin 16 =>
        extByte a.lanes imm4.toNat (Arm.V g.regs Rn) (Arm.V g.regs Rm) k), g.mem⟩) := by
  have hallows := allows_regClass a false
  have hargs : [valueReg .kActionWrite (a.regClass false) Rd,
      valueReg .kActionRead (a.regClass false) Rn, valueReg .kActionRead (a.regClass false) Rm,
      .imm (imm4.setWidth 64)].mapM (SemaOperand.args g.regs) =
      some [[], [.value (.low (a.regClass false) (Arm.V g.regs Rn))],
        [.value (.low (a.regClass false) (Arm.V g.regs Rm))], [.word (imm4.setWidth 64)]] := by
    simp [valueReg, args_V, hallows]
  have hwrites : [valueReg .kActionWrite (a.regClass false) Rd,
      valueReg .kActionRead (a.regClass false) Rn, valueReg .kActionRead (a.regClass false) Rm,
      .imm (imm4.setWidth 64)].mapM SemaOperand.writes =
      some [[⟨.Vector, Rd.toNat⟩], [], [], []] := by
    simp [valueReg, writes_V, hallows]
  have himm : ((imm4.setWidth 64).setWidth 32).toNat = imm4.toNat := by
    simp only [BitVec.toNat_setWidth]
    omega
  -- the two forms differ in the number of bytes they look at
  have hcall : ∀ count, count ≤ 16 →
      (EXT count (Vec.ofBits count (Arm.V g.regs Rn)) (Vec.ofBits count (Arm.V g.regs Rm))
        ((imm4.setWidth 64).setWidth 32).toNat).map (vecValue .Reg16B) =
      some (vecValue .Reg16B fun k : Fin 16 =>
        extByte count imm4.toNat (Arm.V g.regs Rn) (Arm.V g.regs Rm) k) := by
    intro count hcount
    rw [EXT_eq hcount, himm]
    rfl
  apply exec_V_of_isel hdec hargs hwrites rfl (v := vecValue .Reg16B fun k : Fin 16 =>
    extByte a.lanes imm4.toNat (Arm.V g.regs Rn) (Arm.V g.regs Rm) k)
  · rcases ha with rfl | rfl
    · have hisel := hcall 8 (by decide)
      have hlow : ∀ reg, vecOf 8 8 (.low .Reg8B reg) = Vec.ofBits 8 reg :=
        fun reg => vecOf_low reg le_rfl
      rw [← hlow, ← hlow] at hisel
      exact hisel
    · have hisel := hcall 16 le_rfl
      have hlow : ∀ reg, vecOf 16 8 (.low .Reg16B reg) = Vec.ofBits 16 reg :=
        fun reg => vecOf_low reg le_rfl
      rw [← hlow, ← hlow] at hisel
      exact hisel
  · exact whole_vecValue .Reg16B _ (by decide)

/-- The two ways out of an instruction agree when the values do. -/
theorem some_setV_iff {Rd : BitVec 5} {u v : Vec n w} (h : n * w ≤ 128) :
    some (some (⟨Arm.setV R Rd (Arm.zeroExtended u), g.mem⟩ : Guest)) =
      some (some ⟨Arm.setV R Rd (Arm.zeroExtended v), g.mem⟩) ↔ ∀ e, u e = v e := by
  rw [Option.some.injEq, Option.some.injEq, Guest.mk.injEq, setV_inj, zeroExtended_inj h,
    funext_iff]
  exact and_iff_left rfl

/-- `EXT` follows the architecture exactly on operands that mirror each other. -/
theorem followsArm_EXT {Q : BitVec 1} {imm4 : BitVec 4} {Rm Rn Rd : BitVec 5}
    (h : (LaneMove.EXT_ASIMDEXT_ONLY Q imm4 Rm Rn Rd).Allocated) :
    (LaneMove.EXT_ASIMDEXT_ONLY Q imm4 Rm Rn Rd).FollowsArm indirectbr g ↔
      LaneMove.Mirrored (if Q = 1#1 then 16 else 8) imm4.toNat (Arm.V g.regs Rn)
        (Arm.V g.regs Rm) := by
  have hiff : ∀ {a : Arrangement}, a = .B8 ∨ a = .B16 → imm4.toNat ≤ a.lanes →
      (LaneMove.EXT_ASIMDEXT_ONLY Q imm4 Rm Rn Rd).TryDecode =
        some (some (.of (some a) [valueReg .kActionWrite (a.regClass false) Rd,
          valueReg .kActionRead (a.regClass false) Rn, valueReg .kActionRead (a.regClass false) Rm,
          .imm (imm4.setWidth 64)])) → Arm.arrangement Q 0#2 = a →
      ((LaneMove.EXT_ASIMDEXT_ONLY Q imm4 Rm Rn Rd).FollowsArm indirectbr g ↔
        LaneMove.Mirrored a.lanes imm4.toNat (Arm.V g.regs Rn) (Arm.V g.regs Rm)) := by
    intro a ha hle hdec harr
    have hcount : a.lanes ≤ 16 := by rcases ha with rfl | rfl <;> decide
    have harm : ∀ fp, Arm.execMove fp (.EXT_ASIMDEXT_ONLY Q imm4 Rm Rn Rd) g.regs =
        Arm.setV g.regs Rd (Arm.zeroExtended fun k : Fin 16 =>
          armByte a.lanes imm4.toNat (Arm.V g.regs Rn) (Arm.V g.regs Rm) k) := by
      intro fp
      rw [← ext_eq hle]
      show Arm.setV g.regs Rd (Arm.ext (Arm.arrangement Q 0#2) _ _ _) = _
      rw [harr]
      rfl
    rw [← mirrored_iff hcount hle]
    unfold LaneMove.FollowsArm
    constructor
    · intro hall
      have hfp := hall ⟨fun _ x _ => x, fun _ x _ => x⟩
      rw [exec_EXT ha hdec, harm] at hfp
      exact (some_setV_iff (by decide)).mp hfp
    · intro hbytes fp
      rw [exec_EXT ha hdec, harm]
      exact (some_setV_iff (by decide)).mpr hbytes
  -- the decoder takes an index of 8 or more with 16 bytes only
  rcases (by decide : ∀ Q : BitVec 1, Q = 0#1 ∨ Q = 1#1) Q with rfl | rfl
  · have hlt : imm4.toNat < 8 := h.resolve_left (by decide)
    have hclear : imm4 &&& 0x8#4 = 0#4 :=
      (by decide : ∀ x : BitVec 4, x.toNat < 8 → x &&& 0x8#4 = 0#4) imm4 hlt
    exact hiff (.inl rfl) hlt.le (if_neg fun h => h.2 hclear) rfl
  · have hfull : ¬ (1#1 = 0#1 ∧ imm4 &&& 0x8#4 ≠ 0#4) := fun h => absurd h.1 (by decide)
    exact hiff (.inr rfl) imm4.isLt.le (if_neg (t := some none) hfull) rfl

/-! #### An element by the immediate -/

section

variable {imm5 : BitVec 5}

/-- The lowest bit of the immediate is the size. -/
theorem LeastSignificantSetBit_eq : ∀ {imm5 : BitVec 5}, imm5.setWidth 4 ≠ 0#4 →
    LeastSignificantSetBit (imm5.setWidth 64) = some (Arm.elementSize imm5).toNat := by
  decide +kernel

theorem elementSuffix_eq : ∀ size : BitVec 2,
    elementSuffix size.toNat = some (Arm.arrangement 1#1 size) := by decide

/-- The index as the decoders compute it. -/
theorem toNat_elementIndex : ∀ imm5 : BitVec 5,
    (imm5.setWidth 64 >>> ((Arm.elementSize imm5).toNat + 1)).toNat = Arm.elementIndex imm5 := by
  decide +kernel

theorem elementIndex_lt : ∀ {imm5 : BitVec 5}, imm5.setWidth 4 ≠ 0#4 →
    Arm.elementIndex imm5 < (Arm.arrangement 1#1 (Arm.elementSize imm5)).lanes := by decide +kernel

theorem get_index (h : imm5.setWidth 4 ≠ 0#4) (is_float : Bool) (reg : BitVec 128) :
    Vec.get (vecOf (Arm.arrangement 1#1 (Arm.elementSize imm5)).lanes _
        (.low ((Arm.arrangement 1#1 (Arm.elementSize imm5)).regClass is_float) reg))
      (imm5.setWidth 64 >>> ((Arm.elementSize imm5).toNat + 1)).toNat =
      some (Elem (Arm.arrangement 1#1 (Arm.elementSize imm5)) reg (Arm.elementIndex imm5)) := by
  rw [vecOf_regClass, toNat_elementIndex]
  exact get_Elem _ reg (elementIndex_lt h)

theorem decodeMovFromVec_eq (rejected : ℕ → Bool) (Q : BitVec 1) (Rn Rd : BitVec 5)
    (h : imm5.setWidth 4 ≠ 0#4) (hsize : rejected (Arm.elementSize imm5).toNat = false) :
    decodeMovFromVec rejected Q imm5 Rn Rd =
      some (some (.of (some (Arm.arrangement 1#1 (Arm.elementSize imm5)))
        [valueReg .kActionWrite (if Q = 1#1 then .RegX else .RegW) Rd,
        valueReg .kActionRead ((Arm.arrangement 1#1 (Arm.elementSize imm5)).regClass false) Rn,
        .imm (imm5.setWidth 64 >>> ((Arm.elementSize imm5).toNat + 1))])) := by
  unfold decodeMovFromVec
  simp only [LeastSignificantSetBit_eq h, hsize, elementSuffix_eq]
  rfl

/-- `UMOV` and `SMOV` fail in one place only, where the lifter looks up the zero register. -/
theorem followsArm_fromVec {i : LaneMove} {a : Arrangement} {rclass : ERC} {index : BitVec 64}
    {Rn Rd : BitVec 5} {v : Value} (hclass : RegKind.General.allows rclass = true)
    (hdec : i.TryDecode = some (some (.of (some a) [valueReg .kActionWrite rclass Rd,
      valueReg .kActionRead (a.regClass false) Rn, .imm index])))
    (hisel : ∀ fp, i.isel fp (some a)
      [.value (.low (a.regClass false) (Arm.V g.regs Rn)), .word index] = some v)
    (harm : ∀ fp, Arm.execMove fp i g.regs = Arm.setX g.regs Rd (v.bits.setWidth 64)) :
    i.FollowsArm indirectbr g ↔ Rd ≠ 31#5 ∨ indirectbr = false := by
  have hargs : [valueReg .kActionWrite rclass Rd, valueReg .kActionRead (a.regClass false) Rn,
      .imm index].mapM (SemaOperand.args g.regs) =
      some [[], [.value (.low (a.regClass false) (Arm.V g.regs Rn))], [.word index]] := by
    simp [valueReg, args_V, allows_regClass]
  have hwrites : [valueReg .kActionWrite rclass Rd, valueReg .kActionRead (a.regClass false) Rn,
      .imm index].mapM SemaOperand.writes = some [[destX Rd], [], []] := by
    simp [valueReg, writes_general, hclass]
  have hexec : ∀ fp, i.exec fp indirectbr g = if Rd = 31#5 ∧ indirectbr = true then none
      else some (some ⟨Arm.execMove fp i g.regs, g.mem⟩) := by
    intro fp
    have hcall : i.isel fp (some a)
        [[], [.value (.low (a.regClass false) (Arm.V g.regs Rn))], [.word index]].flatten =
          some v :=
      hisel fp
    rw [exec_X hdec hargs hwrites rfl, hcall, harm]
    rfl
  unfold LaneMove.FollowsArm
  constructor
  · intro hall
    -- no operation on floating-point lanes matters, so any two will do
    have hfp := hall ⟨fun _ x _ => x, fun _ x _ => x⟩
    rw [hexec] at hfp
    by_cases hout : Rd = 31#5 ∧ indirectbr = true
    · rw [if_pos hout] at hfp
      cases hfp
    · rw [not_and_or, Bool.not_eq_true] at hout
      exact hout
  · intro hin fp
    rw [hexec, if_neg]
    rintro ⟨hzero, hbr⟩
    rcases hin with hne | hbr'
    · exact hne hzero
    · rw [hbr'] at hbr
      cases hbr

theorem allows_movFromVec (Q : BitVec 1) :
    RegKind.General.allows (if Q = 1#1 then .RegX else .RegW) = true := by
  split_ifs <;> rfl

theorem element_D2_iff : ∀ {size : BitVec 2}, Arm.arrangement 1#1 size = .D2 ↔ size = 3#2 := by
  decide

theorem esize_le_word : ∀ {size : BitVec 2}, size ≠ 3#2 →
    (Arm.arrangement 1#1 size).esize ≤ 32 := by
  decide

theorem wordValue_some (Q : BitVec 1) (f : ∀ m, BitVec m) :
    LaneMove.wordValue Q (fun m => some (f m)) =
      some (if Q = 1#1 then ⟨.RegX, f 64⟩ else ⟨.RegW, f 32⟩) := by
  unfold LaneMove.wordValue
  split_ifs <;> rfl

/-- `UMOV` follows the architecture, unless its single result goes nowhere. -/
theorem followsArm_UMOV {Q : BitVec 1} {Rn Rd : BitVec 5}
    (h : (LaneMove.UMOV_ASIMDINS Q imm5 Rn Rd).Allocated) :
    (LaneMove.UMOV_ASIMDINS Q imm5 Rn Rd).FollowsArm indirectbr g ↔
      Rd ≠ 31#5 ∨ indirectbr = false := by
  obtain ⟨hset, hsize⟩ := h
  have hpass : (decide ((Arm.elementSize imm5).toNat > 3) ||
      Q == 1#1 && decide ((Arm.elementSize imm5).toNat < 3)) = false :=
    (by decide : ∀ (Q : BitVec 1) (size : BitVec 2), (Q = 1#1 ↔ size = 3#2) →
      (decide (size.toNat > 3) || Q == 1#1 && decide (size.toNat < 3)) = false) Q _ hsize
  have hdec : (LaneMove.UMOV_ASIMDINS Q imm5 Rn Rd).TryDecode = _ :=
    decodeMovFromVec_eq (fun size => size > 3 || Q == 1#1 && size < 3) Q Rn Rd hset hpass
  apply followsArm_fromVec (allows_movFromVec Q) hdec
    (v := if Q = 1#1 then ⟨.RegX, (Elem _ (Arm.V g.regs Rn) (Arm.elementIndex imm5)).zeroExtend 64⟩
      else ⟨.RegW, (Elem _ (Arm.V g.regs Rn) (Arm.elementIndex imm5)).zeroExtend 32⟩)
  · intro fp
    have hform : Q = 1#1 ↔ Arm.arrangement 1#1 (Arm.elementSize imm5) = .D2 :=
      hsize.trans element_D2_iff.symm
    show (if Q = 1#1 ↔ Arm.arrangement 1#1 (Arm.elementSize imm5) = .D2 then
      LaneMove.wordValue Q fun m => (Vec.get _ _).map fun x => x.zeroExtend m else none) = _
    rw [if_pos hform, get_index hset false (Arm.V g.regs Rn)]
    exact wordValue_some Q fun m => (Elem _ _ _).zeroExtend m
  -- the shorter form clears the upper half of the register
  · intro fp
    show Arm.setX g.regs Rd ((Elem _ (Arm.V g.regs Rn) (Arm.elementIndex imm5)).setWidth 64) = _
    apply congrArg
    by_cases hQ : Q = 1#1
    · rw [if_pos hQ]
      exact (BitVec.setWidth_eq _).symm
    · have hword := esize_le_word (mt hsize.mpr hQ)
      rw [if_neg hQ]
      exact (BitVec.setWidth_setWidth fun hlt => absurd hlt.1 hword.not_gt).symm

/-- `SMOV` follows the architecture, unless its single result goes nowhere. -/
theorem followsArm_SMOV {Q : BitVec 1} {Rn Rd : BitVec 5}
    (h : (LaneMove.SMOV_ASIMDINS Q imm5 Rn Rd).Allocated) :
    (LaneMove.SMOV_ASIMDINS Q imm5 Rn Rd).FollowsArm indirectbr g ↔
      Rd ≠ 31#5 ∨ indirectbr = false := by
  obtain ⟨hset, hdouble, hsingle⟩ := h
  have hpass : (decide ((Arm.elementSize imm5).toNat > 2) ||
      (Arm.elementSize imm5).toNat == 2 && Q == 0#1) = false :=
    (by decide : ∀ (Q : BitVec 1) (size : BitVec 2), size ≠ 3#2 → (size = 2#2 → Q = 1#1) →
      (decide (size.toNat > 2) || size.toNat == 2 && Q == 0#1) = false) Q _ hdouble hsingle
  have hdec : (LaneMove.SMOV_ASIMDINS Q imm5 Rn Rd).TryDecode = _ :=
    decodeMovFromVec_eq (fun size => size > 2 || size == 2 && Q == 0#1) Q Rn Rd hset hpass
  apply followsArm_fromVec (allows_movFromVec Q) hdec
    (v := if Q = 1#1 then ⟨.RegX, (Elem _ (Arm.V g.regs Rn) (Arm.elementIndex imm5)).signExtend 64⟩
      else ⟨.RegW, (Elem _ (Arm.V g.regs Rn) (Arm.elementIndex imm5)).signExtend 32⟩)
  · intro fp
    have hform : Arm.arrangement 1#1 (Arm.elementSize imm5) ∈ [Arrangement.B16, .H8] ∨
        Q = 1#1 ∧ Arm.arrangement 1#1 (Arm.elementSize imm5) = .S4 :=
      (by decide : ∀ (Q : BitVec 1) (size : BitVec 2), size ≠ 3#2 → (size = 2#2 → Q = 1#1) →
        Arm.arrangement 1#1 size ∈ [Arrangement.B16, .H8] ∨
          Q = 1#1 ∧ Arm.arrangement 1#1 size = .S4) Q _ hdouble hsingle
    show (if Arm.arrangement 1#1 (Arm.elementSize imm5) ∈ [Arrangement.B16, .H8] ∨
        Q = 1#1 ∧ Arm.arrangement 1#1 (Arm.elementSize imm5) = .S4 then
      LaneMove.wordValue Q fun m => (Vec.get _ _).map fun x => x.signExtend m else none) = _
    rw [if_pos hform, get_index hset false (Arm.V g.regs Rn)]
    exact wordValue_some Q fun m => (Elem _ _ _).signExtend m
  · intro fp
    show Arm.setX g.regs Rd (((Elem _ (Arm.V g.regs Rn) (Arm.elementIndex imm5)).signExtend
      (if Q = 1#1 then 64 else 32)).setWidth 64) = _
    rcases (by decide : ∀ Q : BitVec 1, Q = 0#1 ∨ Q = 1#1) Q with rfl | rfl <;> rfl

/-! #### One element replaced -/

theorem set_Elem (a : Arrangement) (reg : BitVec 128) {i : ℕ} (h : i < a.lanes)
    (x : BitVec a.esize) : Vec.set (Vec.ofBits a.lanes reg) i x =
      some fun e : Fin a.lanes => if e.val = i then x else Elem a reg e := by
  rw [Vec.set_of_lt _ h, Option.some.injEq]
  funext e
  rw [Function.update_apply]
  by_cases he : e.val = i
  · rw [if_pos he, if_pos (Fin.ext he)]
  · rw [if_neg he, if_neg fun h' => he (congrArg Fin.val h')]
    rfl

theorem set_index (h : imm5.setWidth 4 ≠ 0#4) (is_float : Bool) (reg : BitVec 128)
    (x : BitVec (Arm.arrangement 1#1 (Arm.elementSize imm5)).esize) :
    Vec.set (vecOf (Arm.arrangement 1#1 (Arm.elementSize imm5)).lanes _
        (.low ((Arm.arrangement 1#1 (Arm.elementSize imm5)).regClass is_float) reg))
      (imm5.setWidth 64 >>> ((Arm.elementSize imm5).toNat + 1)).toNat x =
      some fun e : Fin _ => if e.val = Arm.elementIndex imm5 then x
        else Elem (Arm.arrangement 1#1 (Arm.elementSize imm5)) reg e := by
  rw [vecOf_regClass, toNat_elementIndex]
  exact set_Elem _ reg (elementIndex_lt h) x

theorem whole_fullValue (v : Vec n w) : (LaneMove.fullValue v).whole = Arm.zeroExtended v :=
  BitVec.setWidth_eq _

/-- An instruction with a vector destination and one value. -/
theorem followsArm_of_isel {i : LaneMove} {suffix : Option Arrangement} {ops : List SemaOperand}
    {args : List (List Arg)} {writes : List (List EcvReg)} {Rd : BitVec 5} {v : FloatOps → Value}
    (hdec : i.TryDecode = some (some (.of suffix ops)))
    (hargs : ops.mapM (SemaOperand.args g.regs) = some args)
    (hwrites : ops.mapM SemaOperand.writes = some writes)
    (hRd : writes.flatten = [⟨.Vector, Rd.toNat⟩])
    (hisel : ∀ fp, i.isel fp suffix args.flatten = some (v fp))
    (harm : ∀ fp, Arm.execMove fp i g.regs = Arm.setV g.regs Rd (v fp).whole) :
    i.FollowsArm indirectbr g := by
  intro fp
  rw [harm]
  exact exec_V_of_isel hdec hargs hwrites hRd (hisel fp) rfl

/-- The register that is moved to an element, of a class that is wide enough. -/
theorem args_moved (R : RegFile) (size : BitVec 2) (Rn : BitVec 5) :
    ∃ v, SemaOperand.args R (valueReg .kActionRead (if size.toNat = 3 then .RegX else .RegW) Rn) =
      some [.value v] ∧ v.bits.setWidth (Arm.arrangement 1#1 size).esize =
        (Arm.X R Rn).setWidth (Arm.arrangement 1#1 size).esize := by
  by_cases h : size.toNat = 3
  · rw [if_pos h]
    exact ⟨_, args_X R Rn, rfl⟩
  · have hle : (Arm.arrangement 1#1 size).esize ≤ 32 := esize_le_word fun h' => h (h' ▸ rfl)
    rw [if_neg h]
    exact ⟨_, args_W R Rn, BitVec.setWidth_setWidth_of_le _ hle⟩

/-- `INS` from a general register follows the architecture. -/
theorem followsArm_INS {Rn Rd : BitVec 5} (hset : imm5.setWidth 4 ≠ 0#4) :
    (LaneMove.INS_ASIMDINS_IR_R imm5 Rn Rd).FollowsArm indirectbr g := by
  obtain ⟨x, hx, hlow⟩ := args_moved g.regs (Arm.elementSize imm5) Rn
  have hdec : (LaneMove.INS_ASIMDINS_IR_R imm5 Rn Rd).TryDecode =
      some (some (.of (some (Arm.arrangement 1#1 (Arm.elementSize imm5)))
        [valueReg .kActionReadWrite
          ((Arm.arrangement 1#1 (Arm.elementSize imm5)).regClass false) Rd,
        .imm (imm5.setWidth 64 >>> ((Arm.elementSize imm5).toNat + 1)),
        valueReg .kActionRead
          (if (Arm.elementSize imm5).toNat = 3 then .RegX else .RegW) Rn])) := by
    show TryDecodeINS_ASIMDINS_IR_R imm5 Rn Rd = _
    unfold TryDecodeINS_ASIMDINS_IR_R
    simp only [LeastSignificantSetBit_eq hset, elementSuffix_eq]
  have hargs : [valueReg .kActionReadWrite
      ((Arm.arrangement 1#1 (Arm.elementSize imm5)).regClass false) Rd,
      .imm (imm5.setWidth 64 >>> ((Arm.elementSize imm5).toNat + 1)),
      valueReg .kActionRead (if (Arm.elementSize imm5).toNat = 3 then .RegX else .RegW) Rn].mapM
        (SemaOperand.args g.regs) =
      some [[.value (.low ((Arm.arrangement 1#1 (Arm.elementSize imm5)).regClass false)
        (Arm.V g.regs Rd))], [.word (imm5.setWidth 64 >>> ((Arm.elementSize imm5).toNat + 1))],
        [.value x]] := by
    simp [hx]
    simp [valueReg, args_V, allows_regClass]
  have hwrites : [valueReg .kActionReadWrite
      ((Arm.arrangement 1#1 (Arm.elementSize imm5)).regClass false) Rd,
      .imm (imm5.setWidth 64 >>> ((Arm.elementSize imm5).toNat + 1)),
      valueReg .kActionRead (if (Arm.elementSize imm5).toNat = 3 then .RegX else .RegW) Rn].mapM
        SemaOperand.writes = some [[⟨.Vector, Rd.toNat⟩], [], []] := by
    simp [valueReg, writes_V, allows_regClass]
  apply followsArm_of_isel hdec hargs hwrites rfl
    (v := fun _ => LaneMove.fullValue fun e : Fin _ => if e.val = Arm.elementIndex imm5 then
      (Arm.X g.regs Rn).setWidth _ else Elem _ (Arm.V g.regs Rd) e)
  · intro fp
    show (Vec.set _ _ (x.bits.setWidth _)).map LaneMove.fullValue = _
    rw [set_index hset, hlow]
    rfl
  · intro fp
    rw [whole_fullValue]
    rfl

/-- `INS` from a vector follows the architecture. -/
theorem followsArm_MOV {imm4 : BitVec 4} {Rn Rd : BitVec 5} (hset : imm5.setWidth 4 ≠ 0#4) :
    (LaneMove.MOV_INS_ASIMDINS_IV_V imm5 imm4 Rn Rd).FollowsArm indirectbr g := by
  have hdec : (LaneMove.MOV_INS_ASIMDINS_IV_V imm5 imm4 Rn Rd).TryDecode =
      some (some (.of (some (Arm.arrangement 1#1 (Arm.elementSize imm5)))
        [valueReg .kActionReadWrite
          ((Arm.arrangement 1#1 (Arm.elementSize imm5)).regClass false) Rd,
        .imm (imm5.setWidth 64 >>> ((Arm.elementSize imm5).toNat + 1)),
        valueReg .kActionRead ((Arm.arrangement 1#1 (Arm.elementSize imm5)).regClass false) Rn,
        .imm (imm4.setWidth 64 >>> (Arm.elementSize imm5).toNat)])) := by
    show TryDecodeMOV_INS_ASIMDINS_IV_V imm5 imm4 Rn Rd = _
    unfold TryDecodeMOV_INS_ASIMDINS_IV_V
    simp only [LeastSignificantSetBit_eq hset, elementSuffix_eq]
  have hargs : [valueReg .kActionReadWrite
      ((Arm.arrangement 1#1 (Arm.elementSize imm5)).regClass false) Rd,
      .imm (imm5.setWidth 64 >>> ((Arm.elementSize imm5).toNat + 1)),
      valueReg .kActionRead ((Arm.arrangement 1#1 (Arm.elementSize imm5)).regClass false) Rn,
      .imm (imm4.setWidth 64 >>> (Arm.elementSize imm5).toNat)].mapM
        (SemaOperand.args g.regs) =
      some [[.value (.low ((Arm.arrangement 1#1 (Arm.elementSize imm5)).regClass false)
        (Arm.V g.regs Rd))], [.word (imm5.setWidth 64 >>> ((Arm.elementSize imm5).toNat + 1))],
        [.value (.low ((Arm.arrangement 1#1 (Arm.elementSize imm5)).regClass false)
        (Arm.V g.regs Rn))], [.word (imm4.setWidth 64 >>> (Arm.elementSize imm5).toNat)]] := by
    simp [valueReg, args_V, allows_regClass]
  have hwrites : [valueReg .kActionReadWrite
      ((Arm.arrangement 1#1 (Arm.elementSize imm5)).regClass false) Rd,
      .imm (imm5.setWidth 64 >>> ((Arm.elementSize imm5).toNat + 1)),
      valueReg .kActionRead ((Arm.arrangement 1#1 (Arm.elementSize imm5)).regClass false) Rn,
      .imm (imm4.setWidth 64 >>> (Arm.elementSize imm5).toNat)].mapM
        SemaOperand.writes = some [[⟨.Vector, Rd.toNat⟩], [], [], []] := by
    simp [valueReg, writes_V, allows_regClass]
  -- the index of the source is never past its last lane, so the read does not fail
  have hsrc : Vec.get (vecOf (Arm.arrangement 1#1 (Arm.elementSize imm5)).lanes _
      (.low ((Arm.arrangement 1#1 (Arm.elementSize imm5)).regClass false) (Arm.V g.regs Rn)))
      (imm4.setWidth 64 >>> (Arm.elementSize imm5).toNat).toNat =
      some (Elem (Arm.arrangement 1#1 (Arm.elementSize imm5)) (Arm.V g.regs Rn)
        (imm4.toNat >>> (Arm.elementSize imm5).toNat)) := by
    have hidx : (imm4.setWidth 64 >>> (Arm.elementSize imm5).toNat).toNat =
        imm4.toNat >>> (Arm.elementSize imm5).toNat := by
      rw [BitVec.toNat_ushiftRight, BitVec.toNat_setWidth_of_le (by decide)]
    rw [vecOf_regClass, hidx]
    exact get_Elem _ _ ((by decide : ∀ (imm4 : BitVec 4) (size : BitVec 2),
      imm4.toNat >>> size.toNat < (Arm.arrangement 1#1 size).lanes) _ _)
  apply followsArm_of_isel hdec hargs hwrites rfl
    (v := fun _ => LaneMove.fullValue fun e : Fin _ => if e.val = Arm.elementIndex imm5 then
      Elem _ (Arm.V g.regs Rn) (imm4.toNat >>> (Arm.elementSize imm5).toNat)
      else Elem _ (Arm.V g.regs Rd) e)
  · intro fp
    show ((Vec.get _ _).bind (Vec.set _ _)).map LaneMove.fullValue = _
    rw [hsrc]
    show (Vec.set _ _ _).map LaneMove.fullValue = _
    rw [set_index hset]
    rfl
  · intro fp
    rw [whole_fullValue]
    rfl

/-! #### One element for all -/

/-- An instruction that takes one element of a source to all the lanes is right when the element is
there and the source is the one of the architecture. -/
theorem followsArm_broadcast {i : LaneMove} {a : Arrangement} {is_float : Bool} {index : ℕ}
    {src src' : BitVec 128} {Rd : BitVec 5} {ops : List SemaOperand} {args : List (List Arg)}
    {writes : List (List EcvReg)}
    (f : FloatOps → Fin a.lanes → BitVec a.esize → BitVec a.esize)
    (hf : ∃ fp, ∀ e y, f fp e y = y)
    (hdec : i.TryDecode = some (some (.of (some a) ops)))
    (hargs : ops.mapM (SemaOperand.args g.regs) = some args)
    (hwrites : ops.mapM SemaOperand.writes = some writes)
    (hRd : writes.flatten = [⟨.Vector, Rd.toNat⟩])
    (hisel : ∀ fp, i.isel fp (some a) args.flatten =
      (Vec.get (Vec.ofBits a.lanes src) index).map fun y =>
        vecValue (a.regClass is_float) fun e => f fp e y)
    (harm : ∀ fp, Arm.execMove fp i g.regs =
      Arm.setV g.regs Rd (Arm.zeroExtended fun e => f fp e (Elem a src' index))) :
    i.FollowsArm indirectbr g ↔ index < a.lanes ∧ Elem a src index = Elem a src' index := by
  unfold LaneMove.FollowsArm
  -- past the last lane the read fails, and the run with it
  by_cases hin : index < a.lanes
  · have hiff : ∀ fp, i.exec fp indirectbr g = some (some ⟨Arm.execMove fp i g.regs, g.mem⟩) ↔
        ∀ e, f fp e (Elem a src index) = f fp e (Elem a src' index) := by
      intro fp
      have hexec : i.exec fp indirectbr g = some (some ⟨Arm.setV g.regs Rd
          (Arm.zeroExtended fun e => f fp e (Elem a src index)), g.mem⟩) := by
        rw [exec_V hdec hargs hwrites hRd, hisel, get_Elem a src hin, ← whole_regClass a is_float]
        rfl
      rw [hexec, harm, some_setV_iff a.lanes_mul_esize_le]
    constructor
    · intro hall
      obtain ⟨fp, hfp⟩ := hf
      have helem := (hiff fp).mp (hall fp) ⟨0, a.lanes_pos⟩
      rw [hfp, hfp] at helem
      exact ⟨hin, helem⟩
    · rintro ⟨-, helem⟩ fp
      rw [hiff, helem]
      exact fun e => rfl
  · constructor
    · intro hall
      obtain ⟨fp, -⟩ := hf
      have hexec := hall fp
      rw [exec_V hdec hargs hwrites hRd, hisel, Vec.get_of_le _ (not_lt.mp hin)] at hexec
      cases hexec
    · intro h
      exact absurd h.1 hin

theorem decode_DUP (Q : BitVec 1) (Rn Rd : BitVec 5) (hset : imm5.setWidth 4 ≠ 0#4) :
    (LaneMove.DUP_ASIMDINS_DV_V Q imm5 Rn Rd).TryDecode =
      some (some (.of (some (Arm.arrangement Q (Arm.elementSize imm5)))
        [valueReg .kActionWrite ((Arm.arrangement Q (Arm.elementSize imm5)).regClass false) Rd,
        valueReg .kActionRead ((Arm.arrangement Q (Arm.elementSize imm5)).regClass false) Rn,
        .imm (imm5.setWidth 64 >>> ((Arm.elementSize imm5).toNat + 1))])) := by
  have hfind : (List.range 4).find? (fun i => imm5.getLsbD i) =
      some (Arm.elementSize imm5).toNat :=
    (by decide : ∀ imm5 : BitVec 5, imm5.setWidth 4 ≠ 0#4 →
      (List.range 4).find? (fun i => imm5.getLsbD i) = some (Arm.elementSize imm5).toNat) _ hset
  show TryDecodeDUP_ASIMDINS_DV_V Q imm5 Rn Rd = _
  unfold TryDecodeDUP_ASIMDINS_DV_V ArrangementRegClass
  simp only [hfind, Option.bind_eq_bind, Option.bind_some, ArrangementSpecifier_eq]
  rfl

/-- `DUP` to half a register follows the architecture for elements of the lower half. -/
theorem followsArm_DUP {Q : BitVec 1} {Rn Rd : BitVec 5}
    (h : (LaneMove.DUP_ASIMDINS_DV_V Q imm5 Rn Rd).Allocated) :
    (LaneMove.DUP_ASIMDINS_DV_V Q imm5 Rn Rd).FollowsArm indirectbr g ↔
      Q = 1#1 ∨ imm5.getLsbD 4 = false := by
  obtain ⟨hset, hsize⟩ := h
  have hdec := decode_DUP Q Rn Rd hset
  have hidx : ((imm5.setWidth 64 >>> ((Arm.elementSize imm5).toNat + 1)).setWidth 32).toNat =
      Arm.elementIndex imm5 :=
    (by decide +kernel : ∀ imm5 : BitVec 5,
      ((imm5.setWidth 64 >>> ((Arm.elementSize imm5).toNat + 1)).setWidth 32).toNat =
        Arm.elementIndex imm5) imm5
  have hform : Arm.arrangement Q (Arm.elementSize imm5) ≠ .D1 :=
    (by decide : ∀ (Q : BitVec 1) (size : BitVec 2), (Q = 1#1 ∨ size ≠ 3#2) →
      Arm.arrangement Q size ≠ .D1) Q _ hsize
  -- an index past the last lane of the narrow form is the one that fails
  have hlt : Arm.elementIndex imm5 < (Arm.arrangement Q (Arm.elementSize imm5)).lanes ↔
      Q = 1#1 ∨ imm5.getLsbD 4 = false :=
    (by decide +kernel : ∀ (Q : BitVec 1) (imm5 : BitVec 5), imm5.setWidth 4 ≠ 0#4 →
      (Arm.elementIndex imm5 < (Arm.arrangement Q (Arm.elementSize imm5)).lanes ↔
        Q = 1#1 ∨ imm5.getLsbD 4 = false)) Q imm5 hset
  have hallows := allows_regClass (Arm.arrangement Q (Arm.elementSize imm5)) false
  have hargs : [valueReg .kActionWrite
        ((Arm.arrangement Q (Arm.elementSize imm5)).regClass false) Rd,
      valueReg .kActionRead ((Arm.arrangement Q (Arm.elementSize imm5)).regClass false) Rn,
      .imm (imm5.setWidth 64 >>> ((Arm.elementSize imm5).toNat + 1))].mapM
        (SemaOperand.args g.regs) =
      some [[], [.value (.low ((Arm.arrangement Q (Arm.elementSize imm5)).regClass false)
        (Arm.V g.regs Rn))],
        [.word (imm5.setWidth 64 >>> ((Arm.elementSize imm5).toNat + 1))]] := by
    simp [valueReg, args_V, hallows]
  have hwrites : [valueReg .kActionWrite
        ((Arm.arrangement Q (Arm.elementSize imm5)).regClass false) Rd,
      valueReg .kActionRead ((Arm.arrangement Q (Arm.elementSize imm5)).regClass false) Rn,
      .imm (imm5.setWidth 64 >>> ((Arm.elementSize imm5).toNat + 1))].mapM
        SemaOperand.writes = some [[⟨.Vector, Rd.toNat⟩], [], []] := by
    simp [valueReg, writes_V, hallows]
  have hboth : Q = 1#1 ∨ imm5.getLsbD 4 = false ↔
      Arm.elementIndex imm5 < (Arm.arrangement Q (Arm.elementSize imm5)).lanes ∧
        Elem (Arm.arrangement Q (Arm.elementSize imm5)) (Arm.V g.regs Rn) (Arm.elementIndex imm5) =
          Elem (Arm.arrangement Q (Arm.elementSize imm5)) (Arm.V g.regs Rn)
            (Arm.elementIndex imm5) :=
    hlt.symm.trans (and_iff_left rfl).symm
  rw [hboth]
  apply followsArm_broadcast (fun _ _ y => y) ⟨⟨fun _ x _ => x, fun _ x _ => x⟩, fun _ _ => rfl⟩
    hdec hargs hwrites rfl
  · intro fp
    show (if Arm.arrangement Q (Arm.elementSize imm5) ≠ .D1 then
      (DUP_DV (vecOf _ _ _) _).map (vecValue _) else none) = _
    rw [if_pos hform, DUP_DV_eq, vecOf_regClass, hidx, Option.map_map]
    rfl
  · exact fun fp => rfl

end

/-! #### The forms by element -/

section

variable {d : ElemFields}

/-- The index, as a word. -/
def ElemFields.index (d : ElemFields) : BitVec 64 :=
  if d.sz = 0#1 then (d.H.setWidth 64 <<< 1) + d.L.setWidth 64 else d.H.setWidth 64

theorem toNat_index (d : ElemFields) : d.index.toNat = Arm.byElementIndex d := by
  unfold ElemFields.index Arm.byElementIndex
  exact (by decide : ∀ sz L H : BitVec 1,
    (if sz = 0#1 then (H.setWidth 64 <<< 1) + L.setWidth 64 else H.setWidth 64).toNat =
      if sz = 0#1 then 2 * H.toNat + L.toNat else H.toNat) d.sz d.L d.H

theorem toNat_index_word (d : ElemFields) :
    (d.index.setWidth 32).toNat = Arm.byElementIndex d := by
  unfold ElemFields.index Arm.byElementIndex
  exact (by decide : ∀ sz L H : BitVec 1,
    ((if sz = 0#1 then (H.setWidth 64 <<< 1) + L.setWidth 64 else H.setWidth 64).setWidth
      32).toNat = if sz = 0#1 then 2 * H.toNat + L.toNat else H.toNat) d.sz d.L d.H

theorem byElement_mem (h : d.sz = 0#1 ∨ d.L = 0#1 ∧ d.Q = 1#1) :
    Arm.byElement d ∈ [Arrangement.S2, .S4, .D2] := by
  unfold Arm.byElement
  exact (by decide : ∀ Q sz L : BitVec 1, (sz = 0#1 ∨ L = 0#1 ∧ Q = 1#1) →
    Arm.arrangement Q (if sz = 0#1 then 2#2 else 3#2) ∈ [Arrangement.S2, .S4, .D2]) d.Q d.sz d.L h

theorem byElementIndex_lt_iff (h : d.sz = 0#1 ∨ d.L = 0#1 ∧ d.Q = 1#1) :
    Arm.byElementIndex d < (Arm.byElement d).lanes ↔ d.Q = 1#1 ∨ d.H = 0#1 := by
  unfold Arm.byElement Arm.byElementIndex
  exact (by decide : ∀ Q sz L H : BitVec 1, (sz = 0#1 ∨ L = 0#1 ∧ Q = 1#1) →
    ((if sz = 0#1 then 2 * H.toNat + L.toNat else H.toNat) <
      (Arm.arrangement Q (if sz = 0#1 then 2#2 else 3#2)).lanes ↔ Q = 1#1 ∨ H = 0#1))
    d.Q d.sz d.L d.H h

theorem decodeElem_eq (dst : Action) (h : d.sz = 0#1 ∨ d.L = 0#1 ∧ d.Q = 1#1) :
    decodeElem d dst = some (some (.of (some (Arm.byElement d))
      [valueReg dst ((Arm.byElement d).regClass true) d.Rd,
      valueReg .kActionRead ((Arm.byElement d).regClass true) d.Rn,
      valueReg .kActionRead ((Arm.byElement d).regClass true) (d.Rm.setWidth 5),
      .imm d.index])) := by
  have hspec : ∀ sz : BitVec 1, ArrangementSpecifier (if d.Q = 1#1 then 128 else 64)
      (if sz = 1#1 then 64 else 32) =
        some (Arm.arrangement d.Q (if sz = 0#1 then 2#2 else 3#2)) :=
    (by decide : ∀ Q sz : BitVec 1, ArrangementSpecifier (if Q = 1#1 then 128 else 64)
      (if sz = 1#1 then 64 else 32) = some (Arm.arrangement Q (if sz = 0#1 then 2#2 else 3#2))) d.Q
  unfold decodeElem ArrangementRegClass ElemFields.index Arm.byElement
  simp only [hspec]
  by_cases hsz : d.sz = 0#1
  · simp only [if_pos hsz]
    rfl
  · have hL := (h.resolve_left hsz).1
    simp only [if_neg hsz, if_pos hL]
    rfl

/-- The two numbers of the second source. -/
theorem elementRead_iff (R : RegFile) (h : d.sz = 0#1 ∨ d.L = 0#1 ∧ d.Q = 1#1) :
    Arm.byElementIndex d < (Arm.byElement d).lanes ∧
      Elem (Arm.byElement d) (Arm.V R (d.Rm.setWidth 5)) (Arm.byElementIndex d) =
        Elem (Arm.byElement d) (Arm.V R (Arm.byElementRm d)) (Arm.byElementIndex d) ↔
      LaneMove.ElementRead R d := by
  have hlow : d.M = 0#1 → Arm.byElementRm d = d.Rm.setWidth 5 := by
    intro hM
    unfold Arm.byElementRm
    rw [hM]
    exact (by decide : ∀ x : BitVec 4, (0#1 ++ x : BitVec (1 + 4)) = x.setWidth 5) d.Rm
  rw [byElementIndex_lt_iff h]
  unfold LaneMove.ElementRead
  constructor
  · exact fun ⟨hin, helem⟩ => ⟨hin, .inr helem⟩
  · rintro ⟨hin, hM | helem⟩
    · exact ⟨hin, by rw [hlow hM]⟩
    · exact ⟨hin, helem⟩

/-- `FMUL` by element follows the architecture where the element is the one that is read. -/
theorem followsArm_FMUL (h : (LaneMove.FMUL_ASIMDELEM_R_SD d).Allocated) :
    (LaneMove.FMUL_ASIMDELEM_R_SD d).FollowsArm indirectbr g ↔
      LaneMove.ElementRead g.regs d := by
  have hallows := allows_regClass (Arm.byElement d) true
  have hdec : (LaneMove.FMUL_ASIMDELEM_R_SD d).TryDecode = _ := decodeElem_eq .kActionWrite h
  have hargs : [valueReg .kActionWrite ((Arm.byElement d).regClass true) d.Rd,
      valueReg .kActionRead ((Arm.byElement d).regClass true) d.Rn,
      valueReg .kActionRead ((Arm.byElement d).regClass true) (d.Rm.setWidth 5),
      .imm d.index].mapM (SemaOperand.args g.regs) =
      some [[], [.value (.low ((Arm.byElement d).regClass true) (Arm.V g.regs d.Rn))],
        [.value (.low ((Arm.byElement d).regClass true) (Arm.V g.regs (d.Rm.setWidth 5)))],
        [.word d.index]] := by
    simp [valueReg, args_V, hallows]
  have hwrites : [valueReg .kActionWrite ((Arm.byElement d).regClass true) d.Rd,
      valueReg .kActionRead ((Arm.byElement d).regClass true) d.Rn,
      valueReg .kActionRead ((Arm.byElement d).regClass true) (d.Rm.setWidth 5),
      .imm d.index].mapM SemaOperand.writes = some [[⟨.Vector, d.Rd.toNat⟩], [], [], []] := by
    simp [valueReg, writes_V, hallows]
  rw [← elementRead_iff g.regs h]
  apply followsArm_broadcast (fun fp e y => fp.FMul (Arm.byElement d).esize
    (Elem (Arm.byElement d) (Arm.V g.regs d.Rn) e) y)
    ⟨⟨fun _ _ y => y, fun _ _ y => y⟩, fun _ _ => rfl⟩ hdec hargs hwrites rfl
  · intro fp
    show (if Arm.byElement d ∈ [Arrangement.S2, .S4, .D2] then
      (FMULID_V fp (vecOf _ _ _) (vecOf _ _ _) _).map (vecValue _) else none) = _
    rw [if_pos (byElement_mem h), FMULID_V_eq, vecOf_regClass, vecOf_regClass, toNat_index_word,
      Option.map_map]
    rfl
  · exact fun fp => rfl

/-- `FMLA` by element follows the architecture where the element is the one that is read. -/
theorem followsArm_FMLA (h : (LaneMove.FMLA_ASIMDELEM_R_SD d).Allocated) :
    (LaneMove.FMLA_ASIMDELEM_R_SD d).FollowsArm indirectbr g ↔
      LaneMove.ElementRead g.regs d := by
  have hallows := allows_regClass (Arm.byElement d) true
  have hdec : (LaneMove.FMLA_ASIMDELEM_R_SD d).TryDecode = _ := decodeElem_eq .kActionReadWrite h
  have hargs : [valueReg .kActionReadWrite ((Arm.byElement d).regClass true) d.Rd,
      valueReg .kActionRead ((Arm.byElement d).regClass true) d.Rn,
      valueReg .kActionRead ((Arm.byElement d).regClass true) (d.Rm.setWidth 5),
      .imm d.index].mapM (SemaOperand.args g.regs) =
      some [[.value (.low ((Arm.byElement d).regClass true) (Arm.V g.regs d.Rd))],
        [.value (.low ((Arm.byElement d).regClass true) (Arm.V g.regs d.Rn))],
        [.value (.low ((Arm.byElement d).regClass true) (Arm.V g.regs (d.Rm.setWidth 5)))],
        [.word d.index]] := by
    simp [valueReg, args_V, hallows]
  have hwrites : [valueReg .kActionReadWrite ((Arm.byElement d).regClass true) d.Rd,
      valueReg .kActionRead ((Arm.byElement d).regClass true) d.Rn,
      valueReg .kActionRead ((Arm.byElement d).regClass true) (d.Rm.setWidth 5),
      .imm d.index].mapM SemaOperand.writes = some [[⟨.Vector, d.Rd.toNat⟩], [], [], []] := by
    simp [valueReg, writes_V, hallows]
  rw [← elementRead_iff g.regs h]
  -- any operation shows the element that is read, so one that returns it is enough
  apply followsArm_broadcast (fun fp e y => fp.FAdd (Arm.byElement d).esize
    (Elem (Arm.byElement d) (Arm.V g.regs d.Rd) e) (fp.FMul (Arm.byElement d).esize
      (Elem (Arm.byElement d) (Arm.V g.regs d.Rn) e) y))
    ⟨⟨fun _ _ y => y, fun _ _ y => y⟩, fun _ _ => rfl⟩ hdec hargs hwrites rfl
  · intro fp
    show (if Arm.byElement d ∈ [Arrangement.S2, .S4, .D2] then
      (FMLA_ELEM_V fp (vecOf _ _ _) (vecOf _ _ _) (vecOf _ _ _) _).map (vecValue _)
      else none) = _
    rw [if_pos (byElement_mem h), FMLA_ELEM_V_eq fp (Arm.byElement d).lanes_pos, vecOf_regClass,
      vecOf_regClass, vecOf_regClass, toNat_index, Option.map_map]
    rfl
  · exact fun fp => rfl

end

/-! #### The upper half -/

theorem setWidth_eq_append_iff (x y : BitVec 64) :
    x.setWidth 128 = (x ++ y : BitVec (64 + 64)) ↔ x = 0#64 ∧ y = 0#64 := by
  constructor
  · intro h
    have hx : x = 0#64 := by
      apply BitVec.eq_of_getLsbD_eq
      intro j hj
      have hbit := congrArg (fun v => v.getLsbD (64 + j)) h
      rw [BitVec.getLsbD_append, if_neg (by omega), Nat.add_sub_cancel_left,
        BitVec.getLsbD_setWidth, x.getLsbD_of_ge _ (by omega), Bool.and_false] at hbit
      rw [← hbit, BitVec.getLsbD_zero]
    refine ⟨hx, ?_⟩
    apply BitVec.eq_of_getLsbD_eq
    intro j hj
    have hbit := congrArg (fun v => v.getLsbD j) h
    rw [BitVec.getLsbD_append, if_pos hj, BitVec.getLsbD_setWidth, hx, BitVec.getLsbD_zero,
      Bool.and_false] at hbit
    rw [← hbit, BitVec.getLsbD_zero]
  · rintro ⟨rfl, rfl⟩
    rfl

/-- `FMOV` to the upper half follows the architecture on zeros only. -/
theorem followsArm_FMOV (Rn Rd : BitVec 5) :
    (LaneMove.FMOV_V64I_FLOAT2INT Rn Rd).FollowsArm indirectbr g ↔
      Arm.X g.regs Rn = 0#64 ∧ (Arm.V g.regs Rd).setWidth 64 = 0#64 := by
  have hargs : [valueReg .kActionWrite .Reg2D Rd, valueReg .kActionRead .RegX Rn].mapM
      (SemaOperand.args g.regs) = some [[], [.value ⟨.RegX, Arm.X g.regs Rn⟩]] := by
    simp [valueReg, args_X]
  have hwrites : [valueReg .kActionWrite .Reg2D Rd, valueReg .kActionRead .RegX Rn].mapM
      SemaOperand.writes = some [[⟨.Vector, Rd.toNat⟩], []] := by
    simp [valueReg, writes_V Rd (by decide : RegKind.Vector.allows .Reg2D = true)]
  have hexec : ∀ fp, (LaneMove.FMOV_V64I_FLOAT2INT Rn Rd).exec fp indirectbr g =
      some (some ⟨Arm.setV g.regs Rd ((Arm.X g.regs Rn).setWidth 128), g.mem⟩) :=
    fun fp => exec_V_of_isel rfl hargs hwrites rfl
      (v := ⟨.RegD, (Arm.X g.regs Rn).setWidth 64⟩) rfl
      (congrArg (BitVec.setWidth 128) (BitVec.setWidth_eq _))
  have hiff : ∀ fp, (LaneMove.FMOV_V64I_FLOAT2INT Rn Rd).exec fp indirectbr g =
      some (some ⟨Arm.execMove fp (.FMOV_V64I_FLOAT2INT Rn Rd) g.regs, g.mem⟩) ↔
      Arm.X g.regs Rn = 0#64 ∧ (Arm.V g.regs Rd).setWidth 64 = 0#64 := by
    intro fp
    rw [hexec, ← setWidth_eq_append_iff, Option.some.injEq, Option.some.injEq, Guest.mk.injEq]
    exact (and_iff_left rfl).trans setV_inj
  unfold LaneMove.FollowsArm
  constructor
  · exact fun hall => (hiff ⟨fun _ x _ => x, fun _ x _ => x⟩).mp (hall _)
  · exact fun h fp => (hiff fp).mpr h

end

/-! ### When the code is right -/

/-- An instruction that gets through is decoded and has a semantics function. -/
theorem decode_of_exec {fp : FloatOps} {indirectbr : Bool} {g g' : Guest} {i : LaneMove}
    (h : i.exec fp indirectbr g = some (some g')) :
    ∃ d args v, i.TryDecode = some (some d) ∧ i.isel fp d.suffix args = some v := by
  unfold LaneMove.exec at h
  rcases hdec : i.TryDecode with - | - | d
  · rw [hdec] at h
    cases h
  · rw [hdec] at h
    cases h
  · rw [hdec] at h
    change (execInst indirectbr (i.sema fp d.suffix) d.inst g).bind _ = _ at h
    obtain ⟨g₁, hexec, -⟩ := Option.bind_eq_some_iff.mp h
    unfold execInst at hexec
    obtain ⟨args, -, hexec⟩ := Option.bind_eq_some_iff.mp hexec
    obtain ⟨writes, -, hexec⟩ := Option.bind_eq_some_iff.mp hexec
    obtain ⟨r, hsema, -⟩ := Option.bind_eq_some_iff.mp hexec
    obtain ⟨v, hisel, -⟩ := Option.map_eq_some_iff.mp hsema
    exact ⟨d, args.flatten, v, rfl, hisel⟩

/-- An immediate without a set bit below its top has no suffix. -/
theorem elementSuffix_none : ∀ imm5 : BitVec 5, imm5.setWidth 4 = 0#4 →
    (LeastSignificantSetBit (imm5.setWidth 64)).bind elementSuffix = none := by
  decide +kernel

theorem decodeMovFromVec_some {rejected : ℕ → Bool} {Q : BitVec 1} {imm5 Rn Rd : BitVec 5}
    {d : DecodedMove} (h : decodeMovFromVec rejected Q imm5 Rn Rd = some (some d)) :
    imm5.setWidth 4 ≠ 0#4 ∧ rejected (Arm.elementSize imm5).toNat = false ∧
      d.suffix = some (Arm.arrangement 1#1 (Arm.elementSize imm5)) := by
  have hset : imm5.setWidth 4 ≠ 0#4 := by
    intro hzero
    have hnone := elementSuffix_none imm5 hzero
    unfold decodeMovFromVec at h
    rcases hbit : LeastSignificantSetBit (imm5.setWidth 64) with - | size
    · simp only [hbit] at h
      cases h
    · have hsuffix : elementSuffix size = none := by
        rw [hbit] at hnone
        exact hnone
      simp only [hbit, hsuffix] at h
      split_ifs at h <;> cases h
  by_cases hrej : rejected (Arm.elementSize imm5).toNat = true
  · unfold decodeMovFromVec at h
    simp only [LeastSignificantSetBit_eq hset, hrej] at h
    cases h
  · rw [decodeMovFromVec_eq rejected Q Rn Rd hset (Bool.eq_false_iff.mpr hrej)] at h
    cases h
    exact ⟨hset, Bool.eq_false_iff.mpr hrej, rfl⟩

/-- The arrangements that have a semantics function, where the decoder accepts others. -/
def LaneMove.HasIsel (a : Arrangement) : LaneMove → Prop
  | .DUP_ASIMDINS_DV_V .. => a ≠ .D1
  | .FMUL_ASIMDELEM_R_SD _ | .FMLA_ASIMDELEM_R_SD _ => a ∈ [Arrangement.S2, .S4, .D2]
  | .UMOV_ASIMDINS Q .. => Q = 1#1 ↔ a = .D2
  | _ => True

theorem hasIsel_of_isel {fp : FloatOps} {i : LaneMove} {a : Arrangement} {args : List Arg}
    {v : Value} (h : i.isel fp (some a) args = some v) : i.HasIsel a := by
  unfold LaneMove.isel at h
  split at h <;> simp_all [LaneMove.HasIsel]

/-- The forms by element have functions for three arrangements only. -/
theorem allocated_elem {d : ElemFields} {dst : Action} {inst : DecodedMove}
    (hdec : decodeElem d dst = some (some inst))
    (ha : ∀ a, inst.suffix = some a → a ∈ [Arrangement.S2, .S4, .D2]) :
    d.sz = 0#1 ∨ d.L = 0#1 ∧ d.Q = 1#1 := by
  by_cases hsz : d.sz = 0#1
  · exact .inl hsz
  · by_cases hL : d.L = 0#1
    · refine .inr ⟨hL, ?_⟩
      by_contra hQ
      have hsz1 : d.sz = 1#1 :=
        ((by decide : ∀ b : BitVec 1, b = 0#1 ∨ b = 1#1) d.sz).resolve_left hsz
      unfold decodeElem at hdec
      simp only [if_neg hsz, if_pos hL, if_neg hQ, if_pos hsz1] at hdec
      cases hdec
      exact absurd (ha .D1 rfl) (by decide)
    · unfold decodeElem at hdec
      simp only [if_neg hsz, if_neg hL] at hdec
      cases hdec

/-- Only an allocated instruction gets through. -/
theorem allocated_of_exec {fp : FloatOps} {indirectbr : Bool} {g g' : Guest} {i : LaneMove}
    (h : i.exec fp indirectbr g = some (some g')) : i.Allocated := by
  obtain ⟨d, args, v, hdec, hisel⟩ := decode_of_exec h
  -- a form without a semantics function fails the run, so the form of this one has one
  have hform : ∀ a, d.suffix = some a → i.HasIsel a := fun a ha => hasIsel_of_isel (ha ▸ hisel)
  -- what is not allocated the decoder refuses, or it names a form that has no function
  cases i with
  | EXT_ASIMDEXT_ONLY Q imm4 Rm Rn Rd =>
    by_cases hrej : Q = 0#1 ∧ imm4 &&& 0x8#4 ≠ 0#4
    · change (if Q = 0#1 ∧ imm4 &&& 0x8#4 ≠ 0#4 then some none else _) = _ at hdec
      rw [if_pos hrej] at hdec
      cases hdec
    · exact (by decide : ∀ (Q : BitVec 1) (imm4 : BitVec 4), ¬ (Q = 0#1 ∧ imm4 &&& 0x8#4 ≠ 0#4) →
        Q = 1#1 ∨ imm4.toNat < 8) Q imm4 hrej
  | DUP_ASIMDINS_DV_V Q imm5 Rn Rd =>
    have hset : imm5.setWidth 4 ≠ 0#4 := by
      intro hzero
      have hnone := (by decide : ∀ imm5 : BitVec 5, imm5.setWidth 4 = 0#4 →
        (List.range 4).find? (fun i => imm5.getLsbD i) = none) imm5 hzero
      change ((List.range 4).find? (fun i => imm5.getLsbD i)).bind _ = _ at hdec
      rw [hnone] at hdec
      cases hdec
    rw [decode_DUP Q Rn Rd hset] at hdec
    cases hdec
    exact ⟨hset, (by decide : ∀ (Q : BitVec 1) (size : BitVec 2), Arm.arrangement Q size ≠ .D1 →
      Q = 1#1 ∨ size ≠ 3#2) Q _ (hform _ rfl)⟩
  | FMUL_ASIMDELEM_R_SD e => exact allocated_elem hdec hform
  | FMLA_ASIMDELEM_R_SD e => exact allocated_elem hdec hform
  | INS_ASIMDINS_IR_R imm5 Rn Rd =>
    intro hzero
    have hnone := elementSuffix_none imm5 hzero
    change TryDecodeINS_ASIMDINS_IR_R imm5 Rn Rd = _ at hdec
    unfold TryDecodeINS_ASIMDINS_IR_R at hdec
    split at hdec
    · cases hdec
    · rename_i size hbit
      rw [hbit] at hnone
      simp only [show elementSuffix size = none from hnone] at hdec
      cases hdec
  | MOV_INS_ASIMDINS_IV_V imm5 imm4 Rn Rd =>
    intro hzero
    have hnone := elementSuffix_none imm5 hzero
    change TryDecodeMOV_INS_ASIMDINS_IV_V imm5 imm4 Rn Rd = _ at hdec
    unfold TryDecodeMOV_INS_ASIMDINS_IV_V at hdec
    split at hdec
    · cases hdec
    · rename_i size hbit
      rw [hbit] at hnone
      simp only [show elementSuffix size = none from hnone] at hdec
      cases hdec
  | FMOV_V64I_FLOAT2INT Rn Rd => trivial
  | UMOV_ASIMDINS Q imm5 Rn Rd =>
    obtain ⟨hset, -, hsuffix⟩ := decodeMovFromVec_some hdec
    exact ⟨hset, (hform _ hsuffix).trans element_D2_iff⟩
  | SMOV_ASIMDINS Q imm5 Rn Rd =>
    obtain ⟨hset, hpass, -⟩ := decodeMovFromVec_some hdec
    exact ⟨hset, (by decide : ∀ (Q : BitVec 1) (size : BitVec 2),
      (decide (size.toNat > 2) || size.toNat == 2 && Q == 0#1) = false →
        size ≠ 3#2 ∧ (size = 2#2 → Q = 1#1)) Q _ hpass⟩

/-- The code does what the architecture says of the lanes exactly when `Right` holds. -/
theorem followsArm_moves_iff (indirectbr : Bool) (g : Guest) (i : LaneMove) (h : i.Allocated) :
    i.FollowsArm indirectbr g ↔ i.Right indirectbr g.regs := by
  cases i with
  | EXT_ASIMDEXT_ONLY Q imm4 Rm Rn Rd => exact followsArm_EXT h
  | DUP_ASIMDINS_DV_V Q imm5 Rn Rd => exact followsArm_DUP h
  | FMUL_ASIMDELEM_R_SD d => exact followsArm_FMUL h
  | FMLA_ASIMDELEM_R_SD d => exact followsArm_FMLA h
  | INS_ASIMDINS_IR_R imm5 Rn Rd => exact iff_of_true (followsArm_INS h) trivial
  | MOV_INS_ASIMDINS_IV_V imm5 imm4 Rn Rd => exact iff_of_true (followsArm_MOV h) trivial
  | FMOV_V64I_FLOAT2INT Rn Rd => exact followsArm_FMOV Rn Rd
  | UMOV_ASIMDINS Q imm5 Rn Rd => exact followsArm_UMOV h
  | SMOV_ASIMDINS Q imm5 Rn Rd => exact followsArm_SMOV h

/-- Registers that hold their own byte numbers. -/
def numberedBytes : RegFile := fun _ => 0x0f0e0d0c0b0a09080706050403020100#128

/-- `INS V0.B[1], W1`. -/
theorem followsArm_ins_b : (LaneMove.INS_ASIMDINS_IR_R 0x3#5 1#5 0#5).FollowsArm true
    ⟨numberedBytes, fun _ => 0#8⟩ :=
  (followsArm_moves_iff true ⟨numberedBytes, fun _ => 0#8⟩ (.INS_ASIMDINS_IR_R 0x3#5 1#5 0#5)
    (by decide : (0x3#5).setWidth 4 ≠ 0#4)).mpr trivial

/-- `EXT V0.16B, V1.16B, V2.16B, #1`. -/
theorem not_followsArm_ext_16b : ¬ (LaneMove.EXT_ASIMDEXT_ONLY 1#1 1#4 2#5 1#5 0#5).FollowsArm
    false ⟨numberedBytes, fun _ => 0#8⟩ := by
  rw [followsArm_EXT (.inl rfl)]
  rintro ⟨hlow, -⟩
  exact absurd (hlow 0 (by decide)) (by decide)

end Elfconv.AArch64
