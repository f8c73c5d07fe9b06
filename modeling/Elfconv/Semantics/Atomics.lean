/-
Elfconv/Semantics/Atomics.lean

The atomic memory instructions, and when the code does what the architecture says.

`followsArm_atomic_iff` gives the condition.  The decoders of `SWP`, `LDADD` and `LDSET` have the
two registers the wrong way round: the operand comes from the one that the architecture writes.
Those of `CAS` have them right.
-/
import Elfconv.Lib.ByteMemory
import Elfconv.Semantics.Execute
import Elfconv.Semantics.Operators

namespace Elfconv.AArch64

open ByteMemory

variable {n : ℕ}

/-! ### Semantics functions -/

/-- `SWP_MEMOP` -/
def SWP_MEMOP (src1 : BitVec (n * 8)) (dst_src_mem : BitVec 64) (mem : Memory) :
    Option (BitVec (n * 8) × Memory) :=
  let mem_val := load n mem dst_src_mem
  some (mem_val, store n mem dst_src_mem src1)

/-- The sum replaces the word in memory. -/
def LDADD_MEMOP (src : BitVec (n * 8)) (dst_src_mem : BitVec 64) (mem : Memory) :
    Option (BitVec (n * 8) × Memory) := do
  let mem_val := load n mem dst_src_mem
  let sum ← UAdd mem_val src
  return (mem_val, store n mem dst_src_mem sum)

/-- The union of the bits replaces the word in memory. -/
def LDSET_MEMOP (src : BitVec (n * 8)) (dst_src_mem : BitVec 64) (mem : Memory) :
    Option (BitVec (n * 8) × Memory) := do
  let mem_val := load n mem dst_src_mem
  let union ← UOr mem_val src
  return (mem_val, store n mem dst_src_mem union)

/-- `CAS`: memory is written in any case, with its old value if the comparison fails. -/
def CAS (dst_src1 src2 : BitVec (n * 8)) (dst_mem : BitVec 64) (mem : Memory) :
    Option (BitVec (n * 8) × Memory) :=
  let org_val := load n mem dst_mem
  let cond_eq := UCmpEq org_val dst_src1
  let new_val := Select (cond_eq != 0#64) src2 org_val
  some (org_val, store n mem dst_mem new_val)

theorem LDADD_MEMOP_eq (src : BitVec (n * 8)) (addr : BitVec 64) (mem : Memory) :
    LDADD_MEMOP src addr mem =
      some (load n mem addr, store n mem addr (load n mem addr + src)) := by
  simp only [LDADD_MEMOP, UAdd_eq]
  rfl

theorem LDSET_MEMOP_eq (src : BitVec (n * 8)) (addr : BitVec 64) (mem : Memory) :
    LDSET_MEMOP src addr mem =
      some (load n mem addr, store n mem addr (load n mem addr ||| src)) := by
  simp only [LDSET_MEMOP, UOr_eq]
  rfl

/-! ### Instructions -/

/-- The registers: `Rs` and `Rt` by the names of their fields, and the base. -/
structure AtomicFields where
  Rs : BitVec 5
  Rt : BitVec 5
  Rn : BitVec 5

/-- The instructions that have a decoder. -/
inductive Atomic
  | SWP_32_MEMOP | SWP_64_MEMOP | SWPA_32_MEMOP | SWPA_64_MEMOP | SWPL_32_MEMOP | SWPL_64_MEMOP
  | LDADD_32_MEMOP | LDADD_64_MEMOP | LDADDA_32_MEMOP | LDADDA_64_MEMOP
  | LDADDL_32_MEMOP | LDADDL_64_MEMOP | LDADDAL_32_MEMOP | LDADDAL_64_MEMOP
  | LDSET_32_MEMOP | LDSET_64_MEMOP | LDSETA_32_MEMOP | LDSETA_64_MEMOP
  | LDSETL_32_MEMOP | LDSETL_64_MEMOP | LDSETAL_32_MEMOP | LDSETAL_64_MEMOP
  | CAS_C32_LDSTEXCL | CAS_C64_LDSTEXCL | CASA_C32_LDSTEXCL | CASA_C64_LDSTEXCL
  | CASAL_C32_LDSTEXCL | CASAL_C64_LDSTEXCL | CASL_C32_LDSTEXCL | CASL_C64_LDSTEXCL

/-- The common body of the decoders of `SWP`, `LDADD` and `LDSET`. -/
def decodeMemop (rclass : ERC) (d : AtomicFields) : SemaInst :=
  ⟨[.reg .kActionWrite rclass .kUseAsValue d.Rs, .reg .kActionRead rclass .kUseAsValue d.Rt,
    .address d.Rn 0#64], none⟩

/-- The common body of the decoders of `CAS`. -/
def decodeCAS (rclass : ERC) (d : AtomicFields) : SemaInst :=
  ⟨[.reg .kActionReadWrite rclass .kUseAsValue d.Rs, .reg .kActionRead rclass .kUseAsValue d.Rt,
    .address d.Rn 0#64], none⟩

/-- The common body of the functions of `DEF_SEM_T_RUN` on a register and a word in memory. -/
def callMemop (n : ℕ) (erc : ERC)
    (f : BitVec (n * 8) → BitVec 64 → Memory → Option (BitVec (n * 8) × Memory)) : Sema :=
  fun args mem =>
    match args with
    | [.value src, .word addr] =>
        (f (src.bits.setWidth _) addr mem).map fun r => ([⟨erc, r.1.setWidth _⟩], r.2)
    | _ => none

/-- A `CAS` on two registers and a word in memory. -/
def callCAS (n : ℕ) (erc : ERC) : Sema := fun args mem =>
  match args with
  | [.value dst_src1, .value src2, .word addr] =>
      (CAS (n := n) (dst_src1.bits.setWidth _) (src2.bits.setWidth _) addr mem).map fun r =>
        ([⟨erc, r.1.setWidth _⟩], r.2)
  | _ => none

namespace Atomic

/-- The orderings of an instruction share its decoder. -/
def TryDecode (d : AtomicFields) : Atomic → SemaInst
  | SWP_32_MEMOP | SWPA_32_MEMOP | SWPL_32_MEMOP => decodeMemop .RegW d
  | SWP_64_MEMOP | SWPA_64_MEMOP | SWPL_64_MEMOP => decodeMemop .RegX d
  | LDADD_32_MEMOP | LDADDA_32_MEMOP | LDADDL_32_MEMOP | LDADDAL_32_MEMOP => decodeMemop .RegW d
  | LDADD_64_MEMOP | LDADDA_64_MEMOP | LDADDL_64_MEMOP | LDADDAL_64_MEMOP => decodeMemop .RegX d
  | LDSET_32_MEMOP | LDSETA_32_MEMOP | LDSETL_32_MEMOP | LDSETAL_32_MEMOP => decodeMemop .RegW d
  | LDSET_64_MEMOP | LDSETA_64_MEMOP | LDSETL_64_MEMOP | LDSETAL_64_MEMOP => decodeMemop .RegX d
  | CAS_C32_LDSTEXCL | CASA_C32_LDSTEXCL | CASAL_C32_LDSTEXCL | CASL_C32_LDSTEXCL =>
      decodeCAS .RegW d
  | CAS_C64_LDSTEXCL | CASA_C64_LDSTEXCL | CASAL_C64_LDSTEXCL | CASL_C64_LDSTEXCL =>
      decodeCAS .RegX d

/-- The `DEF_ISEL` of the name. -/
def isel : Atomic → Sema
  | SWP_32_MEMOP | SWPA_32_MEMOP | SWPL_32_MEMOP => callMemop 4 .RegW SWP_MEMOP
  | SWP_64_MEMOP | SWPA_64_MEMOP | SWPL_64_MEMOP => callMemop 8 .RegX SWP_MEMOP
  | LDADD_32_MEMOP | LDADDA_32_MEMOP | LDADDL_32_MEMOP | LDADDAL_32_MEMOP =>
      callMemop 4 .RegW LDADD_MEMOP
  | LDADD_64_MEMOP | LDADDA_64_MEMOP | LDADDL_64_MEMOP | LDADDAL_64_MEMOP =>
      callMemop 8 .RegX LDADD_MEMOP
  | LDSET_32_MEMOP | LDSETA_32_MEMOP | LDSETL_32_MEMOP | LDSETAL_32_MEMOP =>
      callMemop 4 .RegW LDSET_MEMOP
  | LDSET_64_MEMOP | LDSETA_64_MEMOP | LDSETL_64_MEMOP | LDSETAL_64_MEMOP =>
      callMemop 8 .RegX LDSET_MEMOP
  | CAS_C32_LDSTEXCL | CASA_C32_LDSTEXCL | CASAL_C32_LDSTEXCL | CASL_C32_LDSTEXCL =>
      callCAS 4 .RegW
  | CAS_C64_LDSTEXCL | CASA_C64_LDSTEXCL | CASAL_C64_LDSTEXCL | CASL_C64_LDSTEXCL =>
      callCAS 8 .RegX

/-- The program after the instruction. -/
def exec (indirectbr : Bool) (i : Atomic) (d : AtomicFields) (g : Guest) : Option Guest :=
  execInst indirectbr i.isel (i.TryDecode d) g

end Atomic

/-! ### The architecture -/

/-- What is done to the word in memory. -/
inductive AtomicOp
  | SWP | LDADD | LDSET | CAS
  deriving DecidableEq

namespace Atomic

/-- The operation; the orderings make no difference to a single thread. -/
def op : Atomic → AtomicOp
  | SWP_32_MEMOP | SWPA_32_MEMOP | SWPL_32_MEMOP => .SWP
  | SWP_64_MEMOP | SWPA_64_MEMOP | SWPL_64_MEMOP => .SWP
  | LDADD_32_MEMOP | LDADDA_32_MEMOP | LDADDL_32_MEMOP | LDADDAL_32_MEMOP => .LDADD
  | LDADD_64_MEMOP | LDADDA_64_MEMOP | LDADDL_64_MEMOP | LDADDAL_64_MEMOP => .LDADD
  | LDSET_32_MEMOP | LDSETA_32_MEMOP | LDSETL_32_MEMOP | LDSETAL_32_MEMOP => .LDSET
  | LDSET_64_MEMOP | LDSETA_64_MEMOP | LDSETL_64_MEMOP | LDSETAL_64_MEMOP => .LDSET
  | CAS_C32_LDSTEXCL | CASA_C32_LDSTEXCL | CASAL_C32_LDSTEXCL | CASL_C32_LDSTEXCL => .CAS
  | CAS_C64_LDSTEXCL | CASA_C64_LDSTEXCL | CASAL_C64_LDSTEXCL | CASL_C64_LDSTEXCL => .CAS

/-- The bytes of the word in memory. -/
def bytes : Atomic → ℕ
  | SWP_32_MEMOP | SWPA_32_MEMOP | SWPL_32_MEMOP => 4
  | SWP_64_MEMOP | SWPA_64_MEMOP | SWPL_64_MEMOP => 8
  | LDADD_32_MEMOP | LDADDA_32_MEMOP | LDADDL_32_MEMOP | LDADDAL_32_MEMOP => 4
  | LDADD_64_MEMOP | LDADDA_64_MEMOP | LDADDL_64_MEMOP | LDADDAL_64_MEMOP => 8
  | LDSET_32_MEMOP | LDSETA_32_MEMOP | LDSETL_32_MEMOP | LDSETAL_32_MEMOP => 4
  | LDSET_64_MEMOP | LDSETA_64_MEMOP | LDSETL_64_MEMOP | LDSETAL_64_MEMOP => 8
  | CAS_C32_LDSTEXCL | CASA_C32_LDSTEXCL | CASAL_C32_LDSTEXCL | CASL_C32_LDSTEXCL => 4
  | CAS_C64_LDSTEXCL | CASA_C64_LDSTEXCL | CASAL_C64_LDSTEXCL | CASL_C64_LDSTEXCL => 8

end Atomic

namespace Arm

/-- What is left in memory. -/
def atomicResult (op : AtomicOp) (old s t : BitVec n) : BitVec n :=
  match op with
  | .SWP => s
  | .LDADD => old + s
  | .LDSET => old ||| s
  | .CAS => if old = s then t else old

/-- The register that gets the old value. -/
def atomicDest (op : AtomicOp) (d : AtomicFields) : BitVec 5 := if op = .CAS then d.Rs else d.Rt

/-- What the program is after an instruction. -/
def execAtomic (i : Atomic) (d : AtomicFields) (g : Guest) : Guest :=
  let addr := base g.regs d.Rn
  let old := load i.bytes g.mem addr
  let s := (X g.regs d.Rs).setWidth (i.bytes * 8)
  let t := (X g.regs d.Rt).setWidth (i.bytes * 8)
  ⟨setX g.regs (atomicDest i.op d) (old.setWidth 64),
    store i.bytes g.mem addr (atomicResult i.op old s t)⟩

end Arm

namespace Atomic

/-- The code does what the architecture says. -/
def FollowsArm (indirectbr : Bool) (d : AtomicFields) (g : Guest) (i : Atomic) : Prop :=
  i.exec indirectbr d g = some (Arm.execAtomic i d g)

/-- A register, other than the zero register, holds a value. -/
def Holds (R : RegFile) (r : BitVec 5) (x : BitVec 64) : Prop :=
  r = 31#5 ∨ R ⟨.General, r.toNat⟩ = x.setWidth 128

/-- The two registers can be taken one for the other: they are one, or they do the same to the word
in memory and both hold its old value already. -/
def Exchangeable (d : AtomicFields) (g : Guest) (i : Atomic) : Prop :=
  let old := load i.bytes g.mem (Arm.base g.regs d.Rn)
  let s := (Arm.X g.regs d.Rs).setWidth (i.bytes * 8)
  let t := (Arm.X g.regs d.Rt).setWidth (i.bytes * 8)
  d.Rs = d.Rt ∨ Arm.atomicResult i.op old s t = Arm.atomicResult i.op old t s ∧
    Holds g.regs d.Rs (old.setWidth 64) ∧ Holds g.regs d.Rt (old.setWidth 64)

/-- When the code is right. -/
def Right (indirectbr : Bool) (d : AtomicFields) (g : Guest) (i : Atomic) : Prop :=
  (d.Rs ≠ 31#5 ∨ indirectbr = false) ∧ (i.op = .CAS ∨ i.Exchangeable d g)

end Atomic

/-! ### Running an instruction -/

section

variable {indirectbr : Bool} {d : AtomicFields} {g : Guest} {erc : ERC}

/-- A general register by its class. -/
theorem args_general (h : erc = .RegW ∨ erc = .RegX) (R : RegFile) (r : BitVec 5) :
    SemaOperand.args R (.reg .kActionRead erc .kUseAsValue r) =
      some [.value ⟨erc, (Arm.X R r).setWidth (ERCSize erc)⟩] := by
  rcases h with rfl | rfl
  · exact args_W R r
  · rw [args_X]
    show _ = some [Arg.value ⟨.RegX, (Arm.X R r).setWidth 64⟩]
    rw [BitVec.setWidth_eq]

theorem allows_general (h : erc = .RegW ∨ erc = .RegX) : RegKind.General.allows erc = true := by
  rcases h with rfl | rfl <;> rfl

/-- A call with one result for `Rs`. -/
theorem execInst_Rs {sema : Sema} {i : SemaInst} {args : List (List Arg)}
    {writes : List (List EcvReg)} {x : BitVec 64} {mem : Memory} {v : Value}
    (hargs : i.operands.mapM (SemaOperand.args g.regs) = some args)
    (hwrites : i.operands.mapM SemaOperand.writes = some writes) (hback : i.write_back = none)
    (hRs : writes.flatten = [destX d.Rs]) (hcall : sema args.flatten g.mem = some ([v], mem))
    (hv : v.bits.setWidth 64 = x) :
    execInst indirectbr sema i g = if d.Rs = 31#5 ∧ indirectbr = true then none
      else some ⟨Arm.setX g.regs d.Rs x, mem⟩ := by
  rw [execInst_eq hargs hwrites, hcall, hback, hRs]
  show (storeResults indirectbr g.regs [destX d.Rs] [v]).bind _ = _
  rw [storeResults_X, hv]
  split_ifs <;> rfl

/-- The words of the semantics functions are those of the registers. -/
theorem setWidth_argument (hn : n * 8 = ERCSize erc) (x : BitVec 64) :
    (x.setWidth (ERCSize erc)).setWidth (n * 8) = x.setWidth (n * 8) :=
  BitVec.setWidth_setWidth_of_le x hn.le

theorem setWidth_result (hn : n * 8 = ERCSize erc) (x : BitVec (n * 8)) :
    (x.setWidth (ERCSize erc)).setWidth 64 = x.setWidth 64 :=
  BitVec.setWidth_setWidth fun h => absurd h.1 hn.le.not_gt

theorem exec_decodeMemop (h : erc = .RegW ∨ erc = .RegX) (hn : n * 8 = ERCSize erc)
    {f : BitVec (n * 8) → BitVec 64 → Memory → Option (BitVec (n * 8) × Memory)}
    {F : BitVec (n * 8) → BitVec (n * 8) → BitVec (n * 8)}
    (hf : ∀ src addr mem, f src addr mem =
      some (load n mem addr, store n mem addr (F (load n mem addr) src))) :
    execInst indirectbr (callMemop n erc f) (decodeMemop erc d) g =
      if d.Rs = 31#5 ∧ indirectbr = true then none
      else some ⟨Arm.setX g.regs d.Rs ((load n g.mem (Arm.base g.regs d.Rn)).setWidth 64),
        store n g.mem (Arm.base g.regs d.Rn) (F (load n g.mem (Arm.base g.regs d.Rn))
          ((Arm.X g.regs d.Rt).setWidth (n * 8)))⟩ := by
  have hargs : (decodeMemop erc d).operands.mapM (SemaOperand.args g.regs) =
      some [[], [.value ⟨erc, (Arm.X g.regs d.Rt).setWidth (ERCSize erc)⟩],
        [.word (Arm.base g.regs d.Rn)]] := by
    simp [decodeMemop, args_general h, args_address]
  have hwrites : (decodeMemop erc d).operands.mapM SemaOperand.writes =
      some [[destX d.Rs], [], []] := by
    simp [decodeMemop, writes_general, allows_general h]
  have hcall : callMemop n erc f
      [.value ⟨erc, (Arm.X g.regs d.Rt).setWidth (ERCSize erc)⟩, .word (Arm.base g.regs d.Rn)]
      g.mem = some ([⟨erc, (load n g.mem (Arm.base g.regs d.Rn)).setWidth _⟩],
        store n g.mem (Arm.base g.regs d.Rn) (F (load n g.mem (Arm.base g.regs d.Rn))
          ((Arm.X g.regs d.Rt).setWidth (n * 8)))) := by
    show (f _ _ _).map _ = _
    rw [hf, setWidth_argument hn]
    rfl
  exact execInst_Rs hargs hwrites rfl rfl hcall (setWidth_result hn _)

theorem exec_decodeCAS (h : erc = .RegW ∨ erc = .RegX) (hn : n * 8 = ERCSize erc) :
    execInst indirectbr (callCAS n erc) (decodeCAS erc d) g =
      if d.Rs = 31#5 ∧ indirectbr = true then none
      else some ⟨Arm.setX g.regs d.Rs ((load n g.mem (Arm.base g.regs d.Rn)).setWidth 64),
        store n g.mem (Arm.base g.regs d.Rn) (Arm.atomicResult .CAS
          (load n g.mem (Arm.base g.regs d.Rn)) ((Arm.X g.regs d.Rs).setWidth (n * 8))
          ((Arm.X g.regs d.Rt).setWidth (n * 8)))⟩ := by
  have hargs : (decodeCAS erc d).operands.mapM (SemaOperand.args g.regs) =
      some [[.value ⟨erc, (Arm.X g.regs d.Rs).setWidth (ERCSize erc)⟩],
        [.value ⟨erc, (Arm.X g.regs d.Rt).setWidth (ERCSize erc)⟩],
        [.word (Arm.base g.regs d.Rn)]] := by
    simp [decodeCAS, args_general h, args_address]
  have hwrites : (decodeCAS erc d).operands.mapM SemaOperand.writes =
      some [[destX d.Rs], [], []] := by
    simp [decodeCAS, writes_general, allows_general h]
  -- the comparison gives a word that is 1 or 0, and `Select` asks whether it is not 0
  have hsel : ∀ old s t : BitVec (n * 8),
      Select (UCmpEq old s != 0#64) t old = Arm.atomicResult .CAS old s t := by
    intro old s t
    show (if ((BitVec.ofBool (old == s)).setWidth 64 != 0#64) = true then t else old) =
      if old = s then t else old
    by_cases heq : old = s
    · rw [if_pos heq, beq_iff_eq.mpr heq]
      rfl
    · rw [if_neg heq, beq_eq_false_iff_ne.mpr heq]
      rfl
  have hcall : callCAS n erc
      [.value ⟨erc, (Arm.X g.regs d.Rs).setWidth (ERCSize erc)⟩,
        .value ⟨erc, (Arm.X g.regs d.Rt).setWidth (ERCSize erc)⟩, .word (Arm.base g.regs d.Rn)]
      g.mem = some ([⟨erc, (load n g.mem (Arm.base g.regs d.Rn)).setWidth _⟩],
        store n g.mem (Arm.base g.regs d.Rn) (Arm.atomicResult .CAS
          (load n g.mem (Arm.base g.regs d.Rn)) ((Arm.X g.regs d.Rs).setWidth (n * 8))
          ((Arm.X g.regs d.Rt).setWidth (n * 8)))) := by
    rw [← hsel, ← setWidth_argument hn, ← setWidth_argument hn]
    rfl
  exact execInst_Rs hargs hwrites rfl rfl hcall (setWidth_result hn _)

end

/-! ### When the code is right -/

namespace Atomic

/-- The register whose value the code takes to memory. -/
def source (i : Atomic) (d : AtomicFields) : BitVec 5 × BitVec 5 :=
  if i.op = .CAS then (d.Rs, d.Rt) else (d.Rt, d.Rs)

/-- What the code does, with the old value in `Rs` always. -/
theorem exec_eq (indirectbr : Bool) (d : AtomicFields) (g : Guest) (i : Atomic) :
    i.exec indirectbr d g = if d.Rs = 31#5 ∧ indirectbr = true then none
      else some ⟨Arm.setX g.regs d.Rs ((load i.bytes g.mem (Arm.base g.regs d.Rn)).setWidth 64),
        store i.bytes g.mem (Arm.base g.regs d.Rn) (Arm.atomicResult i.op
          (load i.bytes g.mem (Arm.base g.regs d.Rn))
          ((Arm.X g.regs (i.source d).1).setWidth (i.bytes * 8))
          ((Arm.X g.regs (i.source d).2).setWidth (i.bytes * 8)))⟩ := by
  cases i with
  | SWP_32_MEMOP | SWPA_32_MEMOP | SWPL_32_MEMOP =>
    exact exec_decodeMemop (F := fun _ s => s) (.inl rfl) rfl fun _ _ _ => rfl
  | SWP_64_MEMOP | SWPA_64_MEMOP | SWPL_64_MEMOP =>
    exact exec_decodeMemop (F := fun _ s => s) (.inr rfl) rfl fun _ _ _ => rfl
  | LDADD_32_MEMOP | LDADDA_32_MEMOP | LDADDL_32_MEMOP | LDADDAL_32_MEMOP =>
    exact exec_decodeMemop (F := fun old s => old + s) (.inl rfl) rfl LDADD_MEMOP_eq
  | LDADD_64_MEMOP | LDADDA_64_MEMOP | LDADDL_64_MEMOP | LDADDAL_64_MEMOP =>
    exact exec_decodeMemop (F := fun old s => old + s) (.inr rfl) rfl LDADD_MEMOP_eq
  | LDSET_32_MEMOP | LDSETA_32_MEMOP | LDSETL_32_MEMOP | LDSETAL_32_MEMOP =>
    exact exec_decodeMemop (F := fun old s => old ||| s) (.inl rfl) rfl LDSET_MEMOP_eq
  | LDSET_64_MEMOP | LDSETA_64_MEMOP | LDSETL_64_MEMOP | LDSETAL_64_MEMOP =>
    exact exec_decodeMemop (F := fun old s => old ||| s) (.inr rfl) rfl LDSET_MEMOP_eq
  | CAS_C32_LDSTEXCL | CASA_C32_LDSTEXCL | CASAL_C32_LDSTEXCL | CASL_C32_LDSTEXCL =>
    exact exec_decodeCAS (.inl rfl) rfl
  | CAS_C64_LDSTEXCL | CASA_C64_LDSTEXCL | CASAL_C64_LDSTEXCL | CASL_C64_LDSTEXCL =>
    exact exec_decodeCAS (.inr rfl) rfl

end Atomic

/-! ### Two destinations -/

section

variable {R : RegFile} {r s : BitVec 5} {x : BitVec 64}

theorem setX_of_holds (h : Atomic.Holds R r x) : Arm.setX R r x = R := by
  unfold Arm.setX
  rcases h with hz | hx
  · rw [if_pos hz]
  · split_ifs
    · rfl
    · rw [← hx]
      exact Function.update_eq_self _ R

/-- A register that is written by one and not by the other holds the value before. -/
theorem holds_of_setX_eq (hne : r ≠ s) (h : Arm.setX R r x = Arm.setX R s x) :
    Atomic.Holds R r x := by
  by_cases hz : r = 31#5
  · exact .inl hz
  · have hat := congrFun h ⟨.General, r.toNat⟩
    have hother : (⟨.General, r.toNat⟩ : EcvReg) ≠ ⟨.General, s.toNat⟩ := fun h' =>
      hne (BitVec.eq_of_toNat_eq (congrArg EcvReg.number h'))
    unfold Arm.setX at hat
    rw [if_neg hz, Function.update_self] at hat
    refine .inr ?_
    split_ifs at hat
    · exact hat.symm
    · rw [Function.update_of_ne hother] at hat
      exact hat.symm

theorem setX_eq_iff :
    Arm.setX R r x = Arm.setX R s x ↔ r = s ∨ Atomic.Holds R r x ∧ Atomic.Holds R s x := by
  constructor
  · intro h
    by_cases hrs : r = s
    · exact .inl hrs
    · exact .inr ⟨holds_of_setX_eq hrs h, holds_of_setX_eq (Ne.symm hrs) h.symm⟩
  · rintro (rfl | ⟨hr, hs⟩)
    · rfl
    · rw [setX_of_holds hr, setX_of_holds hs]

end

namespace Atomic

theorem bytes_le (i : Atomic) : i.bytes ≤ 2 ^ 64 := by cases i <;> decide

/-- The results agree. -/
theorem result_eq_iff (d : AtomicFields) (g : Guest) (i : Atomic) :
    Arm.execAtomic i d g = ⟨Arm.setX g.regs d.Rs
        ((load i.bytes g.mem (Arm.base g.regs d.Rn)).setWidth 64),
      store i.bytes g.mem (Arm.base g.regs d.Rn) (Arm.atomicResult i.op
        (load i.bytes g.mem (Arm.base g.regs d.Rn))
        ((Arm.X g.regs (i.source d).1).setWidth (i.bytes * 8))
        ((Arm.X g.regs (i.source d).2).setWidth (i.bytes * 8)))⟩ ↔
      i.op = .CAS ∨ i.Exchangeable d g := by
  unfold Arm.execAtomic Exchangeable Arm.atomicDest source
  by_cases hop : i.op = .CAS
  · rw [if_pos hop, if_pos hop]
    exact iff_of_true rfl (.inl hop)
  · rw [if_neg hop, if_neg hop, Guest.mk.injEq, setX_eq_iff, store_inj i.bytes_le]
    constructor
    · rintro ⟨heq | ⟨ht, hs⟩, hres⟩
      · exact .inr (.inl heq.symm)
      · exact .inr (.inr ⟨hres, hs, ht⟩)
    · rintro (h | h | ⟨hres, hs, ht⟩)
      · exact absurd h hop
      · rw [h]
        exact ⟨.inl rfl, rfl⟩
      · exact ⟨.inr ⟨ht, hs⟩, hres⟩

/-- The code does what the architecture says exactly when `Right` holds. -/
theorem followsArm_atomic_iff (indirectbr : Bool) (d : AtomicFields) (g : Guest) (i : Atomic) :
    i.FollowsArm indirectbr d g ↔ i.Right indirectbr d g := by
  unfold FollowsArm Right
  rw [exec_eq, ← result_eq_iff]
  by_cases hout : d.Rs = 31#5 ∧ indirectbr = true
  · rw [if_pos hout]
    constructor
    · intro h
      cases h
    · rintro ⟨hne | hbr, -⟩
      · exact absurd hout.1 hne
      · rw [hout.2] at hbr
        cases hbr
  · rw [if_neg hout, Option.some.injEq]
    rw [not_and_or, Bool.not_eq_true] at hout
    exact ⟨fun h => ⟨hout, h.symm⟩, fun h => h.2.symm⟩

/-- `SWP W1, W2, [X0]` with 1, 2 and an address in the registers. -/
theorem not_followsArm_swp : ¬ SWP_32_MEMOP.FollowsArm false ⟨1#5, 2#5, 0#5⟩
    ⟨fun er => BitVec.ofNat 128 er.number, fun _ => 0#8⟩ := by
  intro h
  have hreg := congrArg (Option.map fun g' => g'.regs ⟨.General, 1⟩) h
  exact absurd hreg (by decide +kernel)

end Atomic

end Elfconv.AArch64
