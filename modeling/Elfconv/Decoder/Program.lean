/-
Elfconv/Decoder/Program.lean

The lifted program against the architecture.

The guest of `Elfconv/Recovery/Following.lean` is here the processor: `Arm.step` reads a word,
decodes it by the tables of the architecture and does what the instruction says.  The lifter, the
decoder, the semantics functions and the runtime's dispatch of branches are all behind the other
side.  Instructions that `Elfconv/Decoder/ArmInst.lean` does not have are parameters on both sides.
-/
import Elfconv.Decoder.Outcome

namespace Elfconv.AArch64

open CInt

/-- The state of the program. -/
def Guest.seen (g : Guest) : Guest := ⟨hide g.regs, g.mem⟩

/-- The instructions of the architecture that are not in `Arm.Inst`. -/
abbrev ArmOther := Addr → BitVec 32 → Guest → Option (Addr × Guest)

/-- The instruction at an address. -/
def fetch (m : TraceManager) (a : Addr) : Option Arm.Inst :=
  if a % 4#64 = 0#64 ∧ (m.readInstructionBytes a).length = kInstructionSize then
    Arm.decode (instBits (m.readInstructionBytes a))
  else none

/-- One instruction of the processor. -/
def Arm.step (m : TraceManager) (other : ArmOther) (a : Addr) (g : Guest) :
    Option (Addr × Guest) :=
  if a % 4#64 = 0#64 ∧ (m.readInstructionBytes a).length = kInstructionSize then
    match fetch m a with
    | some i => i.exec a g
    | none => other a (instBits (m.readInstructionBytes a)) g
  else none

/-- What the lifter and the code make of the other instructions is what they do, where the code does
not end the run. -/
def Others.Agrees (o : Others) (other : ArmOther) : Prop :=
  ∀ indirectbr a w data g l g' branch_taken, TryExtract o.extract w = some data →
    data.iform.embedded = false → o.lift a data = some l → l.lifted = true →
    l.inst.category ≠ .invalid → l.inst.category ≠ .error →
    o.exec indirectbr a data g = some (g', branch_taken) →
    other a w g.seen = some (l.inst.target branch_taken (g.target l.loads), g'.seen)

section

variable {o : Others} {big : Overshift} {ovf : Overflow} {flag : OverflowFlag}
  {m : TraceManager} {patch : Guest → Guest} {a : Addr} {i : Arm.Inst}

/-- An instruction that is fetched is aligned and whole. -/
theorem fetch_eq_some (h : fetch m a = some i) :
    a % 4#64 = 0#64 ∧ (m.readInstructionBytes a).length = kInstructionSize ∧
      Arm.decode (instBits (m.readInstructionBytes a)) = some i := by
  unfold fetch at h
  split_ifs at h with halign
  exact ⟨halign.1, halign.2, h⟩

/-- The processor carries out what it fetches. -/
theorem step_of_fetch {other : ArmOther} (h : fetch m a = some i) (g : Guest) :
    Arm.step m other a g = i.exec a g := by
  obtain ⟨halign, hlen, -⟩ := fetch_eq_some h
  rw [Arm.step, if_pos ⟨halign, hlen⟩, h]

/-! ### One instruction -/

/-- The instruction as the lifter and its code have it. -/
structure Translates (o : Others) (big : Overshift) (ovf : Overflow) (flag : OverflowFlag)
    (m : TraceManager) (a : Addr) (i : Arm.Inst) (inst : DecodedInst) : Prop where
  fetched : fetch m a = some i
  defined : i.undefined = false
  data : decodeData big a i.data = some (.inst inst)
  decoded : ArchDecodeInstruction o big a (m.readInstructionBytes a) = some (.inst inst)
  follows : Follows o ovf flag a i inst

variable {inst : DecodedInst}

/-- A defined instruction is translated unless an operand ends the lifter. -/
theorem exists_translates (hflag : flag.ReturnsFirst) (hbig : big 64 0#64 64#64 = some 0#64)
    (h : fetch m a = some i) (hdefined : i.undefined = false) (hends : i.operandEnds = false) :
    ∃ inst, Translates o big ovf flag m a i inst := by
  obtain ⟨halign, hlen, hi⟩ := fetch_eq_some h
  obtain ⟨inst, hinst, hfollows⟩ := exists_follows hflag hbig halign hlen hi hdefined hends
  refine ⟨inst, h, hdefined, ?_, hinst, hfollows⟩
  rw [← ArchDecodeInstruction_of_extracted halign hlen hi (extracted_of_defined hdefined)]
  exact hinst

/-- What control-flow recovery sees of a translated instruction. -/
theorem Translates.arch_eq (ht : Translates o big ovf flag m a i inst)
    (hm : m.arch = arch o big ovf flag) :
    ∃ write_regs, m.arch a (m.readInstructionBytes a) =
        some ⟨inst.toInstruction, true, inst.loads, write_regs⟩ ∧
      storesResults write_regs = !i.storeEnds true := by
  obtain ⟨write_regs, hlift, hstores⟩ := ht.follows.lift
  refine ⟨write_regs, ?_, hstores⟩
  rw [hm, arch, ht.decoded]
  exact hlift

/-- Where the lifter does not end and the instruction is not rejected, it is defined. -/
theorem defined_of_arch (hm : m.arch = arch o big ovf flag)
    (hbig : big 64 0#64 64#64 = some 0#64) (h : fetch m a = some i) {l : LiftedInst}
    (hl : m.arch a (m.readInstructionBytes a) = some l) (hvalid : l.inst.category ≠ .invalid) :
    i.undefined = false ∧ i.operandEnds = false := by
  obtain ⟨halign, hlen, hi⟩ := fetch_eq_some h
  rw [hm] at hl
  have hdefined : i.undefined = false := by
    by_contra hu
    rw [arch, decode_eq_invalid hbig halign hlen hi (Bool.eq_true_of_not_eq_false hu)] at hl
    exact hvalid (congrArg (·.inst.category) (Option.some.inj hl).symm)
  refine ⟨hdefined, ?_⟩
  by_contra he
  rw [arch_eq_none hbig halign hlen hi hdefined (Bool.eq_true_of_not_eq_false he)] at hl
  cases hl

/-- The code comes to nothing where the result cannot be stored. -/
theorem Translates.exec_eq_none (ht : Translates o big ovf flag m a i inst) (im : LiftedImage m)
    (patch : Guest → Guest) {fn : Addr}
    (hends : i.storeEnds (im.functionOf fn).indirectbr_block = true) (g : Guest) :
    (instCode o big ovf flag im patch).exec fn a g = none := by
  show (ArchDecodeInstruction o big a (m.readInstructionBytes a)).bind _ = _
  rw [ht.decoded]
  exact ht.follows.ends _ g hends

/-- The code has come to something, so its result can be stored. -/
theorem Translates.storeEnds_eq_false (ht : Translates o big ovf flag m a i inst)
    (im : LiftedImage m) (patch : Guest → Guest) {fn : Addr} {g g' : Guest} {branch_taken : Bool}
    (hexec : (instCode o big ovf flag im patch).exec fn a g = some (g', branch_taken)) :
    i.storeEnds (im.functionOf fn).indirectbr_block = false := by
  by_contra hends
  rw [ht.exec_eq_none im patch (Bool.eq_true_of_not_eq_false hends)] at hexec
  cases hexec

/-- What was lifted at the address is the translated instruction. -/
theorem Translates.eq_of_arch (ht : Translates o big ovf flag m a i inst)
    (hm : m.arch = arch o big ovf flag) {l : LiftedInst}
    (hl : m.arch a (m.readInstructionBytes a) = some l) :
    ∃ write_regs, l = ⟨inst.toInstruction, true, inst.loads, write_regs⟩ := by
  obtain ⟨write_regs, harch, -⟩ := ht.arch_eq hm
  exact ⟨write_regs, Option.some.inj (hl.symm.trans harch)⟩

/-- The processor does what the code does. -/
theorem Translates.step (ht : Translates o big ovf flag m a i inst) (im : LiftedImage m)
    (patch : Guest → Guest) (other : ArmOther) {fn : Addr}
    (hends : i.storeEnds (im.functionOf fn).indirectbr_block = false) (g : Guest) :
    ∃ g', (instCode o big ovf flag im patch).exec fn a g = some (g', g'.branchTaken) ∧
      hide g'.regs = hide (i.regs a g.regs) ∧
      Arm.step m other a g.seen =
        some (inst.toInstruction.target g'.branchTaken (g.target inst.loads), g'.seen) := by
  obtain ⟨g', hrun, hmem, hregs, htarget⟩ := ht.follows.exec _ g hends
  refine ⟨g', ?_, hregs, ?_⟩
  · show (ArchDecodeInstruction o big a (m.readInstructionBytes a)).bind _ = _
    rw [ht.decoded]
    exact hrun
  · rw [step_of_fetch ht.fetched, Arm.Inst.exec, if_neg (ht.defined ▸ Bool.false_ne_true), htarget]
    show some (i.nextPC a (hide g.regs), (⟨i.regs a (hide g.regs), g.mem⟩ : Guest)) = _
    rw [nextPC_hide, regs_hide, ← hregs, ← hmem]
    rfl

/-- Where the table accepts a word that is not of `Arm.Inst`, its decoder is not here. -/
theorem embedded_eq_false {w : BitVec 32} {data : InstData} (h : TryExtract o.extract w = some data)
    (hnone : Arm.decode w = none) : data.iform.embedded = false := by
  by_contra hembedded
  obtain ⟨i, hi, -⟩ := exists_of_TryExtract h (Bool.eq_true_of_not_eq_false hembedded)
  rw [← hi, Arm.decode_encode] at hnone
  cases hnone

/-- Encodings whose decoders are elsewhere. -/
theorem decodeData_other {data : InstData} (h : data.iform.embedded = false) :
    decodeData big a data = some (.other data) := by
  have hnone : kDecoder big data.iform = none := by
    rw [← Option.isNone_iff_eq_none, ← Option.not_isSome, kDecoder_isSome, h]
    rfl
  rw [decodeData, hnone]

/-- What is not aligned or not whole is rejected. -/
theorem ArchDecodeInstruction_of_not {inst_bytes : List (BitVec 8)}
    (h : ¬ (a % 4#64 = 0#64 ∧ inst_bytes.length = kInstructionSize)) :
    ArchDecodeInstruction o big a inst_bytes = some .invalid := by
  unfold ArchDecodeInstruction
  by_cases hlen : kInstructionSize ≠ inst_bytes.length
  · rw [if_pos hlen]
  · rw [if_neg hlen, if_pos fun halign => h ⟨halign, (not_not.mp hlen).symm⟩]

/-- **The code of every instruction does what the processor does.** -/
theorem agrees {other : ArmOther} (im : LiftedImage m) (patch : Guest → Guest)
    (hm : m.arch = arch o big ovf flag) (hflag : flag.ReturnsFirst)
    (hbig : big 64 0#64 64#64 = some 0#64) (hother : o.Agrees other) :
    Agrees m (instCode o big ovf flag im patch) Guest.seen (Arm.step m other) where
  unreadable a s h := by
    rw [Arm.step, if_neg]
    rw [h]
    exact fun hlen => nomatch hlen.2
  supported fn a g l g' branch_taken hbytes hl hlifted hvalid herror hexec := by
    rcases hfetch : fetch m a with - | i
    · -- a word that is not of `Arm.Inst` is rejected, or of the other instructions
      have hinvalid (hrejected : ArchDecodeInstruction o big a (m.readInstructionBytes a) =
          some .invalid) : False := by
        rw [hm, arch, hrejected] at hl
        exact hvalid (congrArg (·.inst.category) (Option.some.inj hl).symm)
      by_cases hword : a % 4#64 = 0#64 ∧ (m.readInstructionBytes a).length = kInstructionSize
      · have hdecode : ArchDecodeInstruction o big a (m.readInstructionBytes a) = _ :=
          ArchDecodeInstruction_eq hword.1 hword.2
        rw [fetch, if_pos hword] at hfetch
        rcases hextract : TryExtract o.extract (instBits (m.readInstructionBytes a)) with - | data
        · exact (hinvalid (hdecode.trans (by rw [hextract]; rfl))).elim
        · have hembedded := embedded_eq_false hextract hfetch
          have hinst : ArchDecodeInstruction o big a (m.readInstructionBytes a) =
              some (.other data) := by
            rw [hdecode, hextract]
            exact decodeData_other hembedded
          have hlift : o.lift a data = some l := by
            rw [hm, arch, hinst] at hl
            exact hl
          have hrun : o.exec (im.functionOf fn).indirectbr_block a data g =
              some (g', branch_taken) := by
            have hexec : (ArchDecodeInstruction o big a (m.readInstructionBytes a)).bind _ = _ :=
              hexec
            rw [hinst] at hexec
            exact hexec
          rw [Arm.step, if_pos hword, fetch, if_pos hword, hfetch]
          exact hother _ a _ data g l g' branch_taken hextract hembedded hlift hlifted hvalid
            herror hrun
      · exact (hinvalid (ArchDecodeInstruction_of_not hword)).elim
    -- it was lifted, so it is defined and the lifter does not end at it
    · obtain ⟨hdefined, hends⟩ := defined_of_arch hm hbig hfetch hl hvalid
      obtain ⟨inst, ht⟩ := exists_translates hflag hbig hfetch hdefined hends
      have hstores := ht.storeEnds_eq_false im patch hexec
      obtain ⟨g'', hexec', -, hstep⟩ := ht.step im patch other hstores g
      obtain ⟨rfl, rfl⟩ := Prod.mk.inj (Option.some.inj (hexec.symm.trans hexec'))
      obtain ⟨write_regs, rfl⟩ := ht.eq_of_arch hm hl
      exact hstep

/-! ### Where the program is followed -/

section

variable (im : LiftedImage m) (x : Position Guest)

end

end

/-! ### A run with calls and an indirect branch -/

section

variable {o : Others} {big : Overshift} {ovf : Overflow} {flag : OverflowFlag}
  {m : TraceManager} {a : Addr} {i : Arm.Inst}

end

end Elfconv.AArch64
