/-
Elfconv/Recovery/Closure.lean

The control flow graph a function should get, and what one instruction contributes to it.

`Member` is the specification: the least set of addresses with the entry, closed under the
successors of each member, and, once a member is an indirect branch, with all slots of
the function.  `successors` says which addresses follow an instruction, by its category.

`Harmless` is the condition under which the lifter gets past an address; `liftInst_spec`
shows that it is exact, and `Contributes` collects what the loop body then does.
`Storable` is what the storing at the end of a function with an indirect branch asks of an
address.
-/
import Elfconv.Recovery.Lift

namespace Elfconv

variable (m : TraceManager) (f : Addr)

/-! ### The specification -/

/-- What becomes of an address. -/
inductive Fate
  /-- another function starts here: the block calls it and returns -/
  | tailCall
  /-- unreadable, undecodable or unsupported: the block calls `missing_block` or `error` -/
  | stops
  | runs (inst : Instruction)

/-- What becomes of an address in the function from `f`. -/
def fate (a : Addr) : Fate :=
  if a ≠ f ∧ m.isFunctionEntry a then .tailCall
  else if m.readInstructionBytes a = [] then .stops
  else
    match m.arch a (m.readInstructionBytes a) with
    | none => .stops
    | some l => if l.lifted then .runs l.inst else .stops

/-- The addresses control goes to after an instruction, within the function. -/
def Instruction.successors (inst : Instruction) : List Addr :=
  match inst.category with
  | .normal | .noOp => [inst.next_pc]
  | .asyncHyperCall => if m.isFunctionEntry inst.next_pc then [] else [inst.next_pc]
  | .directJump => [inst.branch_taken_pc]
  | .conditionalBranch => [inst.branch_taken_pc, inst.branch_not_taken_pc]
  | .directFunctionCall | .indirectFunctionCall => [inst.branch_not_taken_pc]
  | _ => []

/-- The addresses that control goes to from an address, within the function. -/
def successors (a : Addr) : List Addr :=
  match fate m f a with
  | .runs inst => inst.successors m
  | _ => []

/-- A `BR` is lifted from the address. -/
def IndirectJump (a : Addr) : Prop :=
  ∃ inst, fate m f a = .runs inst ∧ inst.category = .indirectJump

/-- The 4-byte slots of `[f, f + func_size)`. -/
def Slot (b : Addr) : Prop :=
  ∃ k, f.toNat + 4 * k < (m.getFuncVMA_E f).toNat ∧ b = f + BitVec.ofNat 64 (4 * k)

/-- The addresses that should receive a block. -/
inductive Member : Addr → Prop
  | entry : Member f
  | succ {a b : Addr} : Member a → b ∈ successors m f a → Member b
  | slot {a b : Addr} : Member a → IndirectJump m f a → Slot m f b → Member b

variable {m f} in
/-- `Member` is the least such set. -/
theorem Member.mem_of_closed {a : Addr} {S : Set Addr} (h : Member m f a) (hf : f ∈ S)
    (hsucc : ∀ a ∈ S, ∀ b ∈ successors m f a, b ∈ S)
    (hslot : ∀ a ∈ S, IndirectJump m f a → ∀ b, Slot m f b → b ∈ S) : a ∈ S := by
  induction h with
  | entry => exact hf
  | succ _ hb ih => exact hsucc _ ih _ hb
  | slot _ hj hb ih => exact hslot _ ih hj _ hb

/-- The functions a member calls directly. -/
def Instruction.callees (inst : Instruction) : List Addr :=
  if inst.category = .directFunctionCall ∧ m.isFunctionEntry inst.branch_taken_pc ∧
      inst.branch_not_taken_pc ≠ inst.branch_taken_pc then
    [inst.branch_taken_pc]
  else []

/-- The targets of the direct calls and tail calls from an address. -/
def callees (a : Addr) : List Addr :=
  match fate m f a with
  | .runs inst => inst.callees m
  | _ => []

/-! ### When the lifter gets past an address -/

/-- The categories AArch64 does not have. -/
def Category.foreign : Category → Bool
  | .conditionalIndirectJump | .conditionalIndirectFunctionCall
  | .conditionalDirectFunctionCall | .conditionalFunctionReturn
  | .conditionalAsyncHyperCall => true
  | _ => false

/-- The categories whose block goes on at `branch_not_taken_pc`. -/
def Category.hasNotTaken : Category → Bool
  | .directFunctionCall | .indirectFunctionCall | .conditionalBranch => true
  | _ => false

/-- The categories that need the address in an `X` register. -/
def Category.isIndirect : Category → Bool
  | .indirectJump | .indirectFunctionCall => true
  | _ => false

/-- A decoded instruction that its category does not bring down: no category foreign to
AArch64, no fall-through to address 0, and a branch or call through a register finds a load
from an `X` register (`patched` provides one). -/
structure LiftedInst.Harmless (l : LiftedInst) (patched : Bool) : Prop where
  foreign : l.inst.category.foreign = false
  not_taken : l.inst.category.hasNotTaken = true → l.inst.branch_not_taken_pc ≠ 0
  indirect : l.inst.category.isIndirect = true → patched = true ∨
    ∃ name ∈ l.loads, name.toList.head? = some 'X'

/-- The results of the semantics call at `a`, if there is one, can be stored. -/
def Storable (a : Addr) : Prop :=
  (a ≠ f ∧ m.isFunctionEntry a) ∨ m.readInstructionBytes a = [] ∨
    ∃ l, m.arch a (m.readInstructionBytes a) = some l ∧
      (l.lifted = true → storesResults l.write_regs = true)

/-- The lifter gets past `a`. -/
def Harmless (patched : Bool) (a : Addr) : Prop :=
  (a ≠ f ∧ m.isFunctionEntry a) ∨ m.readInstructionBytes a = [] ∨
    ∃ l, m.arch a (m.readInstructionBytes a) = some l ∧ (l.lifted = true → l.Harmless patched)

/-! ### What the loop body does -/

/-- A block with one terminator, at its end. -/
def OneTerminator (block : List Piece) : Prop :=
  ∃ body t, block = body ++ [t] ∧ t.isTerminator = true ∧
    ∀ p ∈ body, p.isTerminator = false

/-- What the loop body contributes for `a`. -/
structure Contributes (a : Addr) (e : Emitted) : Prop where
  targets : e.targets = successors m f a
  indirect : e.indirect = true ↔ IndirectJump m f a
  callees : e.callees = callees m f a
  stored : (∀ ws ∈ e.written, storesResults ws = true) ↔ Storable m f a
  block : OneTerminator e.block
  tailCall : fate m f a = .tailCall → e.block = [.tailCall (.trace a)]
  stops : fate m f a = .stops →
    ∃ body c, e.block = body ++ [.tailCall c] ∧ (c = .missing_block ∨ c = .error)

variable {m f}

/-- `FindIndirectBrAddress` finds a register exactly when one is loaded. -/
theorem findIndirectBrAddress_isSome {loads : List String} :
    (findIndirectBrAddress loads).isSome = true ↔
      ∃ name ∈ loads, name.toList.head? = some 'X' := by
  simp [findIndirectBrAddress]

/-- The check passes when the address is not zero. -/
theorem checkNotTaken_ok {inst : Instruction} {e e' : Emitted} :
    checkNotTaken inst e = .ok e' ↔ inst.branch_not_taken_pc ≠ 0 ∧ e = e' := by
  unfold checkNotTaken
  split
  · simp_all
  · simp_all

/-- The check passes when the block loads a general register. -/
theorem checkIndirect_ok {loads : List String} {e e' : Emitted} :
    checkIndirect loads e = .ok e' ↔
      (∃ name ∈ loads, name.toList.head? = some 'X') ∧ e = e' := by
  rw [← findIndirectBrAddress_isSome]
  unfold checkIndirect
  split
  · rename_i h
    simp [h]
  · rename_i h
    simp [h]

/-! ### The loop body meets its specification -/

/-- How the block of an instruction ends. -/
def Instruction.connection (m : TraceManager) (inst : Instruction) : List Piece :=
  match inst.category with
  | .normal | .noOp => [.br inst.next_pc]
  | .directJump => [.br inst.branch_taken_pc]
  | .indirectJump => [.brIndirect]
  | .asyncHyperCall => if m.isFunctionEntry inst.next_pc then [.ret] else [.br inst.next_pc]
  | .indirectFunctionCall => [.call .function_call, .br inst.branch_not_taken_pc]
  | .directFunctionCall =>
      (inst.callees m).map (fun c => .call (.trace c)) ++ [.br inst.branch_not_taken_pc]
  | .functionReturn => [.tailCall .function_return]
  | .conditionalBranch => [.condBr inst.branch_taken_pc inst.branch_not_taken_pc]
  | _ => [.tailCall .error]

/-- What an instruction contributes behind `pre`. -/
def Instruction.emitted (m : TraceManager) (inst : Instruction) (pre : List Piece)
    (patched : Bool) (written : List (List WriteReg)) : Emitted where
  block := pre ++ inst.connection m
  targets := inst.successors m
  indirect := inst.category = .indirectJump
  callees := inst.callees m
  patched := patched
  written := written

theorem except_bind_ok {ε α β : Type} {x : Except ε α} {g : α → Except ε β} {b : β} :
    (x >>= g) = .ok b ↔ ∃ a, x = .ok a ∧ g a = .ok b := by
  rcases x with e | a
  · simp [bind, Except.bind]
  · simp [bind, Except.bind]

/-- The switch gets past the checks of its category, or stops at one of them. -/
theorem connectBlocks_ok {inst : Instruction} {loads : List String} {pre : List Piece}
    {patched : Bool} {written : List (List WriteReg)} {e : Emitted} :
    connectBlocks m inst loads pre patched written = .ok e ↔
      (inst.category.foreign = false ∧
        (inst.category.hasNotTaken = true → inst.branch_not_taken_pc ≠ 0) ∧
        (inst.category.isIndirect = true → ∃ name ∈ loads, name.toList.head? = some 'X')) ∧
      inst.emitted m pre patched written = e := by
  rcases h : inst.category
  case asyncHyperCall =>
    by_cases hc : m.isFunctionEntry inst.next_pc = true <;>
      simp [connectBlocks, h, hc, Category.foreign, Category.hasNotTaken, Category.isIndirect,
        Instruction.emitted, Instruction.connection, Instruction.successors,
        Instruction.callees]
  case directFunctionCall =>
    by_cases hc : m.isFunctionEntry inst.branch_taken_pc = true ∧
        ¬inst.branch_not_taken_pc = inst.branch_taken_pc <;>
      simp [connectBlocks, h, hc, Category.foreign, Category.hasNotTaken, Category.isIndirect,
        Instruction.emitted, Instruction.connection, Instruction.successors,
        Instruction.callees, checkNotTaken_ok]
  all_goals
    simp [connectBlocks, h, Category.foreign, Category.hasNotTaken, Category.isIndirect,
      Instruction.emitted, Instruction.connection, Instruction.successors,
      Instruction.callees, checkNotTaken_ok, checkIndirect_ok, except_bind_ok, and_assoc]

/-- More pieces before a terminator. -/
theorem oneTerminator_append {pre : List Piece} (body : List Piece) {t : Piece}
    (hpre : ∀ p ∈ pre, p.isTerminator = false) (hbody : ∀ p ∈ body, p.isTerminator = false)
    (ht : t.isTerminator = true) : OneTerminator (pre ++ (body ++ [t])) := by
  refine ⟨pre ++ body, t, by rw [List.append_assoc], ht, fun p hp => ?_⟩
  exact (List.mem_append.mp hp).elim (hpre p) (hbody p)

/-- What is emitted for an instruction ends in its one terminator. -/
theorem oneTerminator_emitted {inst : Instruction} {pre : List Piece} {patched : Bool}
    {written : List (List WriteReg)} (hpre : ∀ p ∈ pre, p.isTerminator = false) :
    OneTerminator (inst.emitted m pre patched written).block := by
  have single : ∀ t : Piece, t.isTerminator = true → OneTerminator (pre ++ [t]) :=
    fun t ht => oneTerminator_append [] hpre (by simp) ht
  rcases h : inst.category <;>
    simp only [Instruction.emitted, Instruction.connection, h]
  case asyncHyperCall =>
    split
    · exact single _ rfl
    · exact single _ rfl
  case indirectFunctionCall =>
    exact oneTerminator_append [.call .function_call] hpre
      (by simp [Piece.isTerminator]) rfl
  case directFunctionCall =>
    exact oneTerminator_append _ hpre (by simp [Piece.isTerminator]) rfl
  all_goals exact single _ rfl

/-- The decoded part of the loop body. -/
theorem contributes_emitted {a : Addr} {inst : Instruction} {pre : List Piece} {patched : Bool}
    {ws : List WriteReg} (hfate : fate m f a = .runs inst)
    (hpre : ∀ p ∈ pre, p.isTerminator = false)
    (hstored : storesResults ws = true ↔ Storable m f a) :
    Contributes m f a (inst.emitted m pre patched [ws]) where
  targets := by simp [successors, hfate, Instruction.emitted]
  indirect := by simp [IndirectJump, hfate, Instruction.emitted]
  callees := by simp [callees, hfate, Instruction.emitted]
  stored := by
    rw [← hstored]
    exact List.forall_mem_singleton
  block := oneTerminator_emitted hpre
  tailCall h := by simp [hfate] at h
  stops h := by simp [hfate] at h

/-- The part that calls `missing_block` or `error`. -/
theorem contributes_stops {a : Addr} (pre : List Piece) {c : Callee} {patched : Bool}
    (hfate : fate m f a = .stops) (hpre : ∀ p ∈ pre, p.isTerminator = false)
    (hc : c = .missing_block ∨ c = .error) (hstored : Storable m f a) :
    Contributes m f a { block := pre ++ [.tailCall c], patched } where
  targets := by simp [successors, hfate]
  indirect := by simp [IndirectJump, hfate]
  callees := by simp [callees, hfate]
  stored := iff_of_true (fun _ h => absurd h List.not_mem_nil) hstored
  block := oneTerminator_append [] hpre (by simp) rfl
  tailCall h := by simp [hfate] at h
  stops _ := ⟨pre, c, rfl, hc⟩

/-- Whether the `_IO_file_xsputn` patch goes into the function at `f`. -/
def patches (m : TraceManager) (f : Addr) (tmp_patch_fn_check : Bool) : Bool :=
  !tmp_patch_fn_check && m.io_file_xsputn_vma == f

/-- **What the loop body does at an address**, and when it gets past it. -/
theorem liftInst_spec {flag : Bool} {a : Addr} :
    (∀ e, liftInst m f flag a = .ok e →
      Contributes m f a e ∧ Harmless m f (patches m f flag) a ∧
        (e.patched = true → patches m f flag = true)) ∧
    (Harmless m f (patches m f flag) a → ∃ e, liftInst m f flag a = .ok e) := by
  -- the cases are the branches of the source, in its order: a jump to another function
  by_cases htail : a ≠ f ∧ m.isFunctionEntry a = true
  · have hfate : fate m f a = .tailCall := by simp only [fate, if_pos htail]
    simp only [liftInst, if_pos htail]
    refine ⟨?_, fun _ => ⟨_, rfl⟩⟩
    rintro e ⟨⟩
    refine ⟨⟨?_, ?_, ?_, iff_of_true (fun _ h => absurd h List.not_mem_nil) (.inl htail),
      ⟨[], _, rfl, rfl, by simp⟩, fun _ => rfl, fun h => ?_⟩, .inl htail, by simp⟩
    · simp [successors, hfate]
    · simp [IndirectJump, hfate]
    · simp [callees, hfate]
    · simp [hfate] at h
  -- no bytes can be read
  by_cases hbytes : m.readInstructionBytes a = []
  · have hfate : fate m f a = .stops := by simp only [fate, if_neg htail, if_pos hbytes]
    simp only [liftInst, if_neg htail, if_pos hbytes]
    refine ⟨?_, fun _ => ⟨_, rfl⟩⟩
    rintro e ⟨⟩
    exact ⟨contributes_stops [] hfate (by simp) (.inl rfl) (.inr (.inl hbytes)),
      .inr (.inl hbytes), by simp⟩
  -- the decoder refuses
  rcases harch : m.arch a (m.readInstructionBytes a) with - | l
  · simp only [liftInst, if_neg htail, if_neg hbytes, harch]
    refine ⟨by simp, ?_⟩
    rintro (h | h | ⟨l, h, -⟩)
    · exact absurd h htail
    · exact absurd h hbytes
    · simp [harch] at h
  · -- what is emitted before the last piece ends no block
    have hpre : ∀ b : Bool, ∀ p ∈ (if b = true then [Piece.inst, .temp_patch_f_flags]
        else [Piece.inst]), p.isTerminator = false := by
      intro b p hp
      rcases b with - | - <;> simp_all [Piece.isTerminator]
      rcases hp with rfl | rfl <;> rfl
    -- a pending patch adds a load of X0, which names a general register
    have hloads : (∃ name ∈ (if patches m f flag = true then l.loads ++ ["X0"] else l.loads),
        name.toList.head? = some 'X') ↔
        patches m f flag = true ∨ ∃ name ∈ l.loads, name.toList.head? = some 'X' := by
      rcases patches m f flag with - | -
      · simp
      · simp [List.mem_append, or_and_right, exists_or]
    by_cases hlifted : l.lifted = true
    · have hfate : fate m f a = .runs l.inst := by
        simp only [fate, if_neg htail, if_neg hbytes, harch, if_pos hlifted]
      simp only [liftInst, if_neg htail, if_neg hbytes, harch, if_pos hlifted]
      constructor
      · intro e he
        obtain ⟨⟨h₁, h₂, h₃⟩, rfl⟩ := connectBlocks_ok.mp he
        have hstored : storesResults l.write_regs = true ↔ Storable m f a := by
          simp [Storable, htail, hbytes, harch, hlifted]
        refine ⟨contributes_emitted hfate (hpre _) hstored, .inr (.inr ⟨l, harch, fun _ => ?_⟩), id⟩
        exact ⟨h₁, h₂, fun hi => hloads.mp (h₃ hi)⟩
      · rintro (h | h | ⟨l', hl', h⟩)
        · exact absurd h htail
        · exact absurd h hbytes
        · cases harch.symm.trans hl'
          have hl := h hlifted
          exact ⟨_, connectBlocks_ok.mpr
            ⟨⟨hl.foreign, hl.not_taken, fun hi => hloads.mpr (hl.indirect hi)⟩, rfl⟩⟩
    · have hfate : fate m f a = .stops := by
        simp only [fate, if_neg htail, if_neg hbytes, harch, if_neg hlifted]
      simp only [liftInst, if_neg htail, if_neg hbytes, harch, if_neg hlifted]
      refine ⟨?_, fun _ => ⟨_, rfl⟩⟩
      rintro e ⟨⟩
      exact ⟨contributes_stops _ hfate (hpre _) (.inr rfl)
          (.inr (.inr ⟨l, harch, fun h => absurd h hlifted⟩)),
        .inr (.inr ⟨l, harch, fun h => absurd h hlifted⟩), id⟩

/-- What the loop body emits is what the closure asks for. -/
theorem liftInst_contributes {flag : Bool} {a : Addr} {e : Emitted}
    (h : liftInst m f flag a = .ok e) : Contributes m f a e :=
  (liftInst_spec.1 e h).1

/-- Where the loop body ends, the address was harmless. -/
theorem harmless_of_liftInst {flag : Bool} {a : Addr} {e : Emitted}
    (h : liftInst m f flag a = .ok e) : Harmless m f (patches m f flag) a :=
  (liftInst_spec.1 e h).2.1

/-- The patch is applied to the entry, unless nothing is lifted there. -/
theorem patched_of_entry {flag : Bool} {e : Emitted} (h : liftInst m f flag f = .ok e)
    (hp : patches m f flag = true) :
    e.patched = true ∨ successors m f f = [] ∧ ¬ IndirectJump m f f := by
  by_cases hbytes : m.readInstructionBytes f = []
  · refine .inr ⟨?_, ?_⟩ <;> simp [successors, IndirectJump, fate, hbytes]
  refine .inl ?_
  have hp' : (!flag && m.io_file_xsputn_vma == f) = true := hp
  have htail : ¬ (f ≠ f ∧ m.isFunctionEntry f = true) := fun h => h.1 rfl
  simp only [liftInst, if_neg htail, if_neg hbytes, hp', if_true] at h
  split at h
  · cases h
  · split at h
    · obtain ⟨-, rfl⟩ := connectBlocks_ok.mp h
      rfl
    · cases h
      rfl

end Elfconv
