/-
Elfconv/Semantics/ShiftLong.lean

`USHLL` and `USHLL2`, from the fields of the instruction to the destination register.

`immh` holds the size of the source elements in its highest bit and, below it, the high bits of the
shift.  The decoder looks for the lowest bit instead, so that it is right where `immh` has a single
bit: `followsArm_ushll_iff`.  Elsewhere it takes shorter elements and shifts them by more than their
width, accepts what is reserved, or ends the lifter.
-/
import Elfconv.Semantics.Vectors
import Elfconv.Lib.CInt

namespace Elfconv.AArch64

open CInt Lanes

variable {n w : ℕ}

/-! ### The decoder -/

/-- The fields of the instruction. -/
structure LongFields where
  Q : BitVec 1
  immh : BitVec 4
  immb : BitVec 3
  Rn : BitVec 5
  Rd : BitVec 5

/-- The size of the source elements and the shift; nothing where the lifter ends. -/
def sizeAndShift (immh immb : BitVec 64) : Option (ℕ × BitVec 64) :=
  if immh &&& 0b0001#64 ≠ 0#64 then some (8, (immh <<< 3 ||| immb) - 0b1000#64)
  else if immh &&& 0b0010#64 ≠ 0#64 then some (16, (immh <<< 3 ||| immb) - 0b10000#64)
  else if immh &&& 0b0100#64 ≠ 0#64 then some (32, (immh <<< 3 ||| immb) - 0b100000#64)
  else none

namespace LongFields

variable (d : LongFields)

/-- `TryExtractUSHLL_ASIMDSHF_L` leaves a zero `immh` to another class. -/
def TryExtractUSHLL : Bool := d.immh != 0#4

/-- `USHLL{2} <Vd>.<Ta>, <Vn>.<Tb>, #<shift>`; the name has both arrangements. -/
def TryDecodeUSHLL : Option (Option VectorInst) := do
  let d_total_size := 128
  let s_total_size := if d.Q = 1#1 then 128 else 64
  let (s_elem_size, shift_val) ← sizeAndShift (d.immh.setWidth 64) (d.immb.setWidth 64)
  let d_elem_size := s_elem_size <<< 1
  let specifier ← ArrangementSpecifier d_total_size d_elem_size
  let s_specifier ← ArrangementSpecifier s_total_size s_elem_size
  let d_rclass ← ArrangementRegClass d_total_size d_elem_size false
  let s_rclass ← ArrangementRegClass s_total_size s_elem_size false
  return some ⟨[specifier, s_specifier], (d_rclass, d.Rd), [(s_rclass, d.Rn)], [shift_val]⟩

end LongFields

/-! ### The semantics functions -/

section

variable (big : Overshift)

/-- A left shift of an element, whose type is promoted to one of 32 bits at least.  A `uint16_t`
becomes an `int`, but holds a byte here, which no shift within the width brings to its sign. -/
def shlPromoted (x : BitVec w) (amount : BitVec 64) : Option (BitVec w) :=
  let width := max 32 w
  (if amount.toNat < width then some (x.setWidth width <<< amount.toNat)
    else big width (x.setWidth width) (amount.setWidth width)).map (BitVec.setWidth w)

/-- The lanes of the source, the low ones where it has more than the result. -/
def USHLL (m : ℕ) (src : Vec n w) (shift_imm : BitVec 64) : Option (Vec m (2 * w)) :=
  forLoop 0 n 1
    (fun i res => Vec.assign res i do
      shlPromoted big ((← Vec.get src i).setWidth (2 * w)) shift_imm)
    fun _ => 0#(2 * w)

/-- The upper lanes of the source. -/
def USHLL2 (m : ℕ) (src : Vec n w) (shift_imm : BitVec 64) : Option (Vec m (2 * w)) :=
  forLoop (n / 2) n 1
    (fun i res => Vec.assign res (i - n / 2) do
      shlPromoted big ((← Vec.get src i).setWidth (2 * w)) shift_imm)
    fun _ => 0#(2 * w)

/-- The semantics function of a name, on the values of its operands. -/
def callUSHLL : List Arrangement → List Value → List (BitVec 64) → Option Value
  | [.H8, .B8], [src], [imm] => (USHLL big 8 (vecOf 8 8 src) imm).map (vecValue .Reg8H)
  | [.S4, .H4], [src], [imm] => (USHLL big 4 (vecOf 4 16 src) imm).map (vecValue .Reg4S)
  | [.D2, .S2], [src], [imm] => (USHLL big 2 (vecOf 2 32 src) imm).map (vecValue .Reg2D)
  | [.H8, .B16], [src], [imm] => (USHLL2 big 8 (vecOf 16 8 src) imm).map (vecValue .Reg8H)
  | [.S4, .H8], [src], [imm] => (USHLL2 big 4 (vecOf 8 16 src) imm).map (vecValue .Reg4S)
  | [.D2, .S4], [src], [imm] => (USHLL2 big 2 (vecOf 4 32 src) imm).map (vecValue .Reg2D)
  | _, _, _ => none

/-- The registers after the instruction, or that it is rejected; nothing where the lifter ends or
the semantics function computes no value. -/
def LongFields.exec (d : LongFields) (V : VectorRegs) : Option (Option VectorRegs) :=
  if d.TryExtractUSHLL then do
    let some i ← d.TryDecodeUSHLL | return none
    let result ← callUSHLL big i.specifiers (i.operands V) i.imms
    return some (i.store V result)
  else some none

end

/-! ### The architecture -/

namespace Arm

/-- The lanes of a half of a register, extended to twice their width and shifted. -/
def shiftedLanes (esize : ℕ) (operand : BitVec 64) (shift : ℕ) : Vec (64 / esize) (2 * esize) :=
  fun e => (operand.extractLsb' (esize * e) esize).setWidth (2 * esize) <<< shift

/-- `8 << HighestSetBit(immh)` -/
def esizeOf (immh : BitVec 4) : ℕ := 8 <<< Nat.log2 immh.toNat

/-- What is written to the destination, for the value of the source register. -/
def ushll (Q : BitVec 1) (immh : BitVec 4) (immb : BitVec 3) (reg : BitVec 128) : BitVec 128 :=
  let esize := esizeOf immh
  let shift := (immh ++ immb).toNat - esize
  let operand := reg.extractLsb' (64 * Q.toNat) 64
  (shiftedLanes esize operand shift).bits.setWidth 128

/-- The registers after the instruction; nothing for another class and for what is reserved. -/
def USHLL (d : LongFields) (V : VectorRegs) : Option VectorRegs :=
  if d.immh = 0#4 ∨ d.immh.getLsbD 3 = true then none
  else some (Function.update V d.Rd (ushll d.Q d.immh d.immb (V d.Rn)))

end Arm

/-! ### What the semantics functions compute -/

section

variable {big : Overshift}

theorem shlPromoted_eq (x : BitVec w) {amount : BitVec 64} (h : amount.toNat < max 32 w) :
    shlPromoted big x amount = some (x <<< amount.toNat) := by
  show Option.map _ (if amount.toNat < max 32 w then _ else _) = _
  rw [if_pos h, Option.map_some, Option.some.injEq]
  apply BitVec.eq_of_getLsbD_eq
  intro i hi
  have hi' : i < max 32 w := hi.trans_le (le_max_right 32 w)
  rw [BitVec.getLsbD_setWidth, BitVec.getLsbD_shiftLeft, BitVec.getLsbD_setWidth,
    BitVec.getLsbD_shiftLeft, decide_eq_true hi, decide_eq_true hi',
    decide_eq_true ((Nat.sub_le i _).trans_lt hi')]
  simp

theorem USHLL_eq (src : Vec n w) (imm : BitVec 64) (f : Vec n (2 * w))
    (h : ∀ i, shlPromoted big ((src i).setWidth (2 * w)) imm = some (f i)) :
    USHLL big n src imm = some f := by
  apply forLoop_fill (Nat.sub_zero n) f _ (fun k _ => Nat.zero_add k)
  intro k
  rw [Nat.zero_add, Vec.get_fin]
  exact h k

theorem USHLL2_eq {m : ℕ} (hm : n - n / 2 = m) (src : Vec n w) (imm : BitVec 64)
    (f : Vec m (2 * w))
    (h : ∀ i : Fin m, shlPromoted big ((src ⟨n / 2 + i, by omega⟩).setWidth (2 * w)) imm =
      some (f i)) :
    USHLL2 big m src imm = some f := by
  apply forLoop_fill hm f _ (fun k _ => Nat.add_sub_cancel_left _ k)
  intro k
  rw [Vec.get_of_lt src (by omega)]
  exact h k

/-- The loop over all lanes computes what the architecture says of the low half. -/
theorem USHLL_arm (reg : BitVec 128) {imm : BitVec 64} (h : imm.toNat < max 32 (2 * w)) :
    USHLL big (64 / w) (Vec.ofBits (64 / w) reg : Vec (64 / w) w) imm =
      some (Arm.shiftedLanes w (reg.extractLsb' 0 64) imm.toNat) := by
  apply USHLL_eq
  intro i
  have hlane : w * i + w ≤ 64 := by
    have hle := Nat.mul_le_mul_left w i.isLt
    rw [Nat.mul_succ] at hle
    exact hle.trans (Nat.mul_div_le 64 w)
  rw [shlPromoted_eq _ h, Arm.shiftedLanes, extract_extract reg hlane, zero_add]
  rfl

/-- The loop over the upper lanes computes what the architecture says of the high half. -/
theorem USHLL2_arm (hw : w * (64 / w) = 64) (hm : 128 / w - 128 / w / 2 = 64 / w)
    (hhalf : 128 / w / 2 = 64 / w) (reg : BitVec 128) {imm : BitVec 64}
    (h : imm.toNat < max 32 (2 * w)) :
    USHLL2 big (64 / w) (Vec.ofBits (128 / w) reg : Vec (128 / w) w) imm =
      some (Arm.shiftedLanes w (reg.extractLsb' 64 64) imm.toNat) := by
  apply USHLL2_eq hm
  intro i
  have hlane : w * i + w ≤ 64 := by
    have hle := Nat.mul_le_mul_left w i.isLt
    rw [Nat.mul_succ] at hle
    omega
  have hplace : w * (128 / w / 2 + i) = 64 + w * i := by rw [hhalf, mul_add, hw]
  rw [shlPromoted_eq _ h, Arm.shiftedLanes, extract_extract reg hlane, ← hplace]
  rfl

/-! ### Where `immh` has a single bit -/

theorem sizeAndShift_eq : ∀ immb : BitVec 3, ∀ immh ∈ [1#4, 2#4, 4#4],
    sizeAndShift (immh.setWidth 64) (immb.setWidth 64) =
      some (Arm.esizeOf immh, BitVec.ofNat 64 ((immh ++ immb).toNat - Arm.esizeOf immh)) := by
  decide +kernel

theorem shift_lt : ∀ immb : BitVec 3, ∀ immh ∈ [1#4, 2#4, 4#4],
    (immh ++ immb).toNat - Arm.esizeOf immh < 32 := by
  decide +kernel

variable {d : LongFields} {V : VectorRegs}

theorem exec_of_call {m : ℕ} {i : VectorInst} {erc : ERC} {v : Vec m w} (hne : d.immh ≠ 0#4)
    (hdec : d.TryDecodeUSHLL = some (some i))
    (hcall : callUSHLL big i.specifiers (i.operands V) i.imms = some (vecValue erc v))
    (hle : m * w ≤ ERCSize erc) :
    d.exec big V = some (some (Function.update V i.dst.2 (v.bits.setWidth 128))) := by
  have hext : d.TryExtractUSHLL = true := bne_iff_ne.mpr hne
  unfold LongFields.exec
  rw [if_pos hext, hdec]
  show (callUSHLL big i.specifiers (i.operands V) i.imms).bind _ = _
  rw [hcall, Option.bind_some, store_vecValue i V v hle]
  rfl

/-- The forms on the low half, where the call is the loop over all lanes. -/
theorem exec_low {s t : Arrangement} {derc serc : ERC} {imm : BitVec 64} (hne : d.immh ≠ 0#4)
    (hdec : d.TryDecodeUSHLL = some (some ⟨[s, t], (derc, d.Rd), [(serc, d.Rn)], [imm]⟩))
    (hcall : ∀ x, callUSHLL big [s, t] [x] [imm] =
      (USHLL big (64 / w) (vecOf (64 / w) w x) imm).map (vecValue derc))
    (hs : ERCSize serc = 64) (hd : 64 / w * (2 * w) ≤ ERCSize derc)
    (himm : imm.toNat < max 32 (2 * w)) :
    d.exec big V = some (some (Function.update V d.Rd
      ((Arm.shiftedLanes w ((V d.Rn).extractLsb' 0 64) imm.toNat).bits.setWidth 128))) := by
  refine exec_of_call hne hdec ?_ hd
  show callUSHLL big [s, t] [.low serc (V d.Rn)] [imm] = _
  rw [hcall, vecOf_low _ (hs ▸ Nat.div_mul_le_self 64 w), USHLL_arm _ himm, Option.map_some]

/-- The forms on the high half, where the call is the loop over the upper lanes. -/
theorem exec_high {s t : Arrangement} {derc serc : ERC} {imm : BitVec 64} (hne : d.immh ≠ 0#4)
    (hdec : d.TryDecodeUSHLL = some (some ⟨[s, t], (derc, d.Rd), [(serc, d.Rn)], [imm]⟩))
    (hcall : ∀ x, callUSHLL big [s, t] [x] [imm] =
      (USHLL2 big (64 / w) (vecOf (128 / w) w x) imm).map (vecValue derc))
    (hw : w * (64 / w) = 64) (hm : 128 / w - 128 / w / 2 = 64 / w)
    (hhalf : 128 / w / 2 = 64 / w)
    (hs : ERCSize serc = 128) (hd : 64 / w * (2 * w) ≤ ERCSize derc)
    (himm : imm.toNat < max 32 (2 * w)) :
    d.exec big V = some (some (Function.update V d.Rd
      ((Arm.shiftedLanes w ((V d.Rn).extractLsb' 64 64) imm.toNat).bits.setWidth 128))) := by
  refine exec_of_call hne hdec ?_ hd
  show callUSHLL big [s, t] [.low serc (V d.Rn)] [imm] = _
  rw [hcall, vecOf_low _ (hs ▸ Nat.div_mul_le_self 128 w), USHLL2_arm hw hm hhalf _ himm,
    Option.map_some]

/-- The operands for a size of the source elements. -/
theorem TryDecodeUSHLL_eq {e : ℕ} {imm : BitVec 64}
    (h : sizeAndShift (d.immh.setWidth 64) (d.immb.setWidth 64) = some (e, imm)) :
    d.TryDecodeUSHLL =
      (ArrangementSpecifier 128 (e <<< 1)).bind fun specifier =>
      (ArrangementSpecifier (if d.Q = 1#1 then 128 else 64) e).map fun s_specifier =>
      some ⟨[specifier, s_specifier], (specifier.regClass false, d.Rd),
        [(s_specifier.regClass false, d.Rn)], [imm]⟩ := by
  unfold LongFields.TryDecodeUSHLL ArrangementRegClass
  rw [h]
  show (ArrangementSpecifier 128 (e <<< 1)).bind _ = _
  cases ArrangementSpecifier 128 (e <<< 1) with
  | none => rfl
  | some specifier =>
    show (ArrangementSpecifier (if d.Q = 1#1 then 128 else 64) e).bind _ = Option.map _ _
    cases ArrangementSpecifier (if d.Q = 1#1 then 128 else 64) e <;> rfl

theorem Q_cases : ∀ Q : BitVec 1, Q = 0#1 ∨ Q = 1#1 := by
  decide

theorem esizeOf_mem : ∀ immh ∈ [1#4, 2#4, 4#4], Arm.esizeOf immh ∈ [8, 16, 32] := by
  decide +kernel

theorem exec_eq (h : d.immh ∈ [1#4, 2#4, 4#4]) : d.exec big V = some (Arm.USHLL d V) := by
  have hdec := TryDecodeUSHLL_eq (sizeAndShift_eq d.immb d.immh h)
  have hlt := (shift_lt d.immb d.immh h).trans_le (le_max_left 32 (2 * Arm.esizeOf d.immh))
  have himm : (BitVec.ofNat 64 ((d.immh ++ d.immb).toNat - Arm.esizeOf d.immh)).toNat =
      (d.immh ++ d.immb).toNat - Arm.esizeOf d.immh := by
    rw [BitVec.toNat_ofNat, Nat.mod_eq_of_lt ((shift_lt d.immb d.immh h).trans (by decide))]
  have hvalid : ¬ (d.immh = 0#4 ∨ d.immh.getLsbD 3 = true) :=
    (by decide : ∀ immh ∈ [1#4, 2#4, 4#4], ¬ (immh = 0#4 ∨ immh.getLsbD 3 = true)) d.immh h
  have hne : d.immh ≠ 0#4 := fun h0 => hvalid (Or.inl h0)
  rw [Arm.USHLL, if_neg hvalid]
  show _ = some (some (Function.update V d.Rd ((Arm.shiftedLanes (Arm.esizeOf d.immh)
    ((V d.Rn).extractLsb' (64 * d.Q.toNat) 64)
    ((d.immh ++ d.immb).toNat - Arm.esizeOf d.immh)).bits.setWidth 128)))
  rw [← himm] at hlt ⊢
  have he := esizeOf_mem d.immh h
  rw [List.mem_cons, List.mem_cons, List.mem_singleton] at he
  rcases Q_cases d.Q with hQ | hQ
  · rw [hQ] at hdec ⊢
    rcases he with he | he | he <;> rw [he] at hdec hlt ⊢
    · exact exec_low hne hdec (fun _ => rfl) rfl (by decide) hlt
    · exact exec_low hne hdec (fun _ => rfl) rfl (by decide) hlt
    · exact exec_low hne hdec (fun _ => rfl) rfl (by decide) hlt
  · rw [hQ] at hdec ⊢
    rcases he with he | he | he <;> rw [he] at hdec hlt ⊢
    · exact exec_high hne hdec (fun _ => rfl) (by decide) (by decide) (by decide) rfl
        (by decide) hlt
    · exact exec_high hne hdec (fun _ => rfl) (by decide) (by decide) (by decide) rfl
        (by decide) hlt
    · exact exec_high hne hdec (fun _ => rfl) (by decide) (by decide) (by decide) rfl
        (by decide) hlt

/-! ### Elsewhere -/

/-- The decoder rejects nothing. -/
theorem TryDecodeUSHLL_ne_rejected : d.TryDecodeUSHLL ≠ some none := by
  cases h : sizeAndShift (d.immh.setWidth 64) (d.immb.setWidth 64) with
  | none =>
    unfold LongFields.TryDecodeUSHLL
    rw [h]
    exact nofun
  | some p =>
    rw [TryDecodeUSHLL_eq h]
    cases ArrangementSpecifier 128 (p.1 <<< 1) with
    | none => exact nofun
    | some specifier =>
      show Option.map _ _ ≠ _
      cases ArrangementSpecifier (if d.Q = 1#1 then 128 else 64) p.1 <;> exact nofun

theorem exec_ne_rejected (hne : d.immh ≠ 0#4) : d.exec big V ≠ some none := by
  have hext : d.TryExtractUSHLL = true := bne_iff_ne.mpr hne
  unfold LongFields.exec
  rw [if_pos hext]
  cases hdec : d.TryDecodeUSHLL with
  | none => exact nofun
  | some i =>
    cases i with
    | none => exact absurd hdec TryDecodeUSHLL_ne_rejected
    | some i =>
      show (callUSHLL big i.specifiers (i.operands V) i.imms).bind _ ≠ _
      cases callUSHLL big i.specifiers (i.operands V) i.imms <;> exact nofun

/-- On equal lanes the loops compute equal lanes, whatever a shift by too much gives. -/
theorem USHLL_const {src : Vec n w} {c : BitVec w} (hsrc : ∀ i, src i = c) (hn : 0 < n)
    (imm : BitVec 64) :
    USHLL big n src imm = (shlPromoted big (c.setWidth (2 * w)) imm).map fun y _ => y := by
  cases hy : shlPromoted big (c.setWidth (2 * w)) imm with
  | none =>
    apply forLoop_none hn
    rw [Vec.get_of_lt src hn, hsrc]
    show (shlPromoted big (c.setWidth (2 * w)) imm).bind _ = none
    rw [hy]
    rfl
  | some y => exact USHLL_eq src imm _ fun i => by rw [hsrc, hy]

theorem USHLL2_const {m : ℕ} (hm : n - n / 2 = m) {src : Vec n w} {c : BitVec w}
    (hsrc : ∀ i, src i = c) (hn : 0 < n) (imm : BitVec 64) :
    USHLL2 big m src imm = (shlPromoted big (c.setWidth (2 * w)) imm).map fun y _ => y := by
  cases hy : shlPromoted big (c.setWidth (2 * w)) imm with
  | none =>
    have hlt : n / 2 < n := Nat.div_lt_self hn (by decide)
    apply forLoop_none hlt
    rw [Vec.get_of_lt src hlt, hsrc]
    show (shlPromoted big (c.setWidth (2 * w)) imm).bind _ = none
    rw [hy]
    rfl
  | some y => exact USHLL2_eq hm src imm _ fun i => by rw [hsrc, hy]

/-- Registers whose bytes are all one. -/
def oneBytes : VectorRegs := fun _ => 0x01010101010101010101010101010101#128

theorem equal_lanes_of_call {m : ℕ} {i : VectorInst} {erc : ERC} {o : Option (BitVec w)}
    {V' : VectorRegs} (hne : d.immh ≠ 0#4) (hdec : d.TryDecodeUSHLL = some (some i))
    (hcall : callUSHLL big i.specifiers (i.operands V) i.imms =
      (o.map fun y (_ : Fin m) => y).map (vecValue erc))
    (hm : 1 < m) (hle : m * w ≤ ERCSize erc) (h : d.exec big V = some (some V')) :
    (V' i.dst.2).extractLsb' 0 w = (V' i.dst.2).extractLsb' w w := by
  cases o with
  | none =>
    have hnone : d.exec big V = none := by
      have hext : d.TryExtractUSHLL = true := bne_iff_ne.mpr hne
      unfold LongFields.exec
      rw [if_pos hext, hdec]
      show (callUSHLL big i.specifiers (i.operands V) i.imms).bind _ = none
      rw [hcall]
      rfl
    rw [hnone] at h
    cases h
  | some y =>
    have hexec := exec_of_call hne hdec hcall hle
    rw [h, Option.some.injEq, Option.some.injEq] at hexec
    have hlane : ∀ l : Fin m, (V' i.dst.2).extractLsb' (w * l) w = y := by
      intro l
      rw [hexec, Function.update_self]
      exact congrFun (Vec.ofBits_setWidth _ (hle.trans (ERCSize_le erc))) l
    have h0 := hlane ⟨0, by omega⟩
    have h1 := hlane ⟨1, hm⟩
    rw [Fin.val_mk, mul_zero] at h0
    rw [Fin.val_mk, mul_one] at h1
    rw [h0, h1]

theorem lanes_oneBytes (r : BitVec 5) :
    (∀ i, vecOf 8 8 (.low .Reg8B (oneBytes r)) i = 0x01#8) ∧
    (∀ i, vecOf 4 16 (.low .Reg4H (oneBytes r)) i = 0x0101#16) ∧
    (∀ i, vecOf 16 8 (.low .Reg16B (oneBytes r)) i = 0x01#8) ∧
    ∀ i, vecOf 8 16 (.low .Reg8H (oneBytes r)) i = 0x0101#16 := by
  have h : oneBytes r = 0x01010101010101010101010101010101#128 := rfl
  rw [h]
  decide

theorem equal_lanes {e : ℕ} {imm : BitVec 64} {V' : VectorRegs} (hne : d.immh ≠ 0#4)
    (hsize : sizeAndShift (d.immh.setWidth 64) (d.immb.setWidth 64) = some (e, imm))
    (he : e = 8 ∨ e = 16) (h : d.exec big oneBytes = some (some V')) :
    (V' d.Rd).extractLsb' 0 (2 * e) = (V' d.Rd).extractLsb' (2 * e) (2 * e) := by
  have hdec := TryDecodeUSHLL_eq hsize
  obtain ⟨h8B, h4H, h16B, h8H⟩ := lanes_oneBytes d.Rn
  rcases Q_cases d.Q with hQ | hQ <;> rw [hQ] at hdec <;> rcases he with rfl | rfl
  · exact equal_lanes_of_call (m := 8) hne hdec
      (congrArg (Option.map (vecValue .Reg8H)) (USHLL_const h8B (by decide) imm))
      (by decide) (by decide : 8 * (2 * 8) ≤ ERCSize .Reg8H) h
  · exact equal_lanes_of_call (m := 4) hne hdec
      (congrArg (Option.map (vecValue .Reg4S)) (USHLL_const h4H (by decide) imm))
      (by decide) (by decide : 4 * (2 * 16) ≤ ERCSize .Reg4S) h
  · exact equal_lanes_of_call (m := 8) hne hdec
      (congrArg (Option.map (vecValue .Reg8H))
        (USHLL2_const (by decide : 16 - 16 / 2 = 8) h16B (by decide) imm))
      (by decide) (by decide : 8 * (2 * 8) ≤ ERCSize .Reg8H) h
  · exact equal_lanes_of_call (m := 4) hne hdec
      (congrArg (Option.map (vecValue .Reg4S))
        (USHLL2_const (by decide : 8 - 8 / 2 = 4) h8H (by decide) imm))
      (by decide) (by decide : 4 * (2 * 16) ≤ ERCSize .Reg4S) h

/-- The other values of `immh`, with the size that the decoder takes. -/
theorem sizeAndShift_other : ∀ immb : BitVec 3, ∀ p ∈ [(3#4, 8), (5#4, 8), (6#4, 16), (7#4, 8)],
    (sizeAndShift (p.1.setWidth 64) (immb.setWidth 64)).map Prod.fst = some p.2 := by
  decide +kernel

/-- There the architecture shifts longer elements, and gives lanes that differ. -/
theorem ushll_lanes_ne : ∀ (Q : BitVec 1) (immb : BitVec 3),
    ∀ p ∈ [(3#4, 8), (5#4, 8), (6#4, 16), (7#4, 8)],
      (Arm.ushll Q p.1 immb (oneBytes 0#5)).extractLsb' 0 (2 * p.2) ≠
        (Arm.ushll Q p.1 immb (oneBytes 0#5)).extractLsb' (2 * p.2) (2 * p.2) := by
  decide +kernel

theorem exec_ne_of_other {e : ℕ} (h : (d.immh, e) ∈ [(3#4, 8), (5#4, 8), (6#4, 16), (7#4, 8)]) :
    d.exec big oneBytes ≠ some (Arm.USHLL d oneBytes) := by
  intro heq
  have hvalid : ¬ (d.immh = 0#4 ∨ d.immh.getLsbD 3 = true) :=
    (by decide : ∀ p ∈ [(3#4, 8), (5#4, 8), (6#4, 16), (7#4, 8)],
      ¬ (p.1 = 0#4 ∨ p.1.getLsbD 3 = true)) (d.immh, e) h
  have he : e = 8 ∨ e = 16 :=
    (by decide : ∀ p ∈ [(3#4, 8), (5#4, 8), (6#4, 16), (7#4, 8)], p.2 = 8 ∨ p.2 = 16) (d.immh, e) h
  obtain ⟨⟨e', imm⟩, hsize, rfl⟩ := Option.map_eq_some_iff.mp
    (sizeAndShift_other d.immb (d.immh, e) h)
  rw [Arm.USHLL, if_neg hvalid] at heq
  have hlanes := equal_lanes (fun h0 => hvalid (Or.inl h0)) hsize he heq
  rw [Function.update_self] at hlanes
  exact ushll_lanes_ne d.Q d.immb (d.immh, e') h hlanes

/-! ### The instruction follows the architecture -/

/-- **`USHLL` and `USHLL2` follow the architecture** on all registers exactly where a single one of
the low bits of `immh` is set; a zero `immh` is another class. -/
theorem followsArm_ushll_iff (big : Overshift) (d : LongFields) :
    (∀ V, d.exec big V = some (Arm.USHLL d V)) ↔ d.immh ∈ [0#4, 1#4, 2#4, 4#4] := by
  -- `immh` has its one bit at the element size, other bits below it, or is reserved
  have hcases : ∀ immh : BitVec 4, immh = 0#4 ∨ immh ∈ [1#4, 2#4, 4#4] ∨
      (∃ e ∈ [8, 16], (immh, e) ∈ [(3#4, 8), (5#4, 8), (6#4, 16), (7#4, 8)]) ∨
      immh.getLsbD 3 = true := by
    decide
  have hgood : ∀ immh : BitVec 4, immh = 0#4 ∨ immh ∈ [1#4, 2#4, 4#4] →
      immh ∈ [0#4, 1#4, 2#4, 4#4] := by
    decide
  constructor
  · intro h
    rcases hcases d.immh with h0 | hone | ⟨e, -, hother⟩ | hreserved
    · exact hgood _ (Or.inl h0)
    · exact hgood _ (Or.inr hone)
    · exact absurd (h oneBytes) (exec_ne_of_other hother)
    · have hne : d.immh ≠ 0#4 := by
        intro h0
        rw [h0] at hreserved
        cases hreserved
      have hrej := h oneBytes
      rw [Arm.USHLL, if_pos (Or.inr hreserved)] at hrej
      exact absurd hrej (exec_ne_rejected hne)
  · intro h V
    rw [List.mem_cons] at h
    rcases h with h0 | hone
    · rw [Arm.USHLL, if_pos (Or.inl h0)]
      have hext : ¬ d.TryExtractUSHLL = true := fun hx => bne_iff_ne.mp hx h0
      exact if_neg hext
    · exact exec_eq hone

/-- `USHLL V0.4S, V0.4H, #8` is executed on bytes, and leaves zero in every lane. -/
theorem not_followsArm_ushll_h8 :
    LongFields.exec Overshift.undefined ⟨0#1, 3#4, 0#3, 0#5, 0#5⟩ oneBytes ≠
      some (Arm.USHLL ⟨0#1, 3#4, 0#3, 0#5, 0#5⟩ oneBytes) :=
  exec_ne_of_other (e := 8) (by decide)

end

end Elfconv.AArch64
