/-
Elfconv/Recovery/Lift.lean

`TraceLifter::Impl::Lift`: the recovery of the control flow of a function.

`liftInst` is the body of the decoding loop for one address: the instructions it puts into
the block, the blocks it creates by `GetOrCreate…Block`, and what it notes about the
function.  `liftStep` is one turn of the machine: an address popped from the work list,
one slot of the loop over all slots, or the decision between them.  `liftTraces` is the
loop over `trace_work_list`.

In a function with an indirect branch the results of all semantics calls are stored at the
end, and the storing has checks of its own: `storesResults`.

`std::set` work lists are ascending lists.  `blocks` and `lifted_block_map` are one map,
since `GetOrCreateBlock` extends both.  `sema_call_written_reg_map` is one list for all
blocks.  `b_jump_callees_map` and the rest of the register bookkeeping, which only the
passes behind `Lift` read, are left out.
-/
import Elfconv.Lib.Machine
import Elfconv.Recovery.Instruction

namespace Elfconv

/-- What a block calls. -/
inductive Callee
  | trace (addr : Addr)
  | function_call | missing_block | error | function_return
  deriving DecidableEq, Repr

/-- The contents of a block.  `tailCall` is `AddTerminatingTailCall`: a call and a return. -/
inductive Piece
  | inst
  | temp_patch_f_flags
  | call (callee : Callee)
  | tailCall (callee : Callee)
  | ret
  | br (dst : Addr)
  | condBr (taken not_taken : Addr)
  | brIndirect
  deriving DecidableEq, Repr

/-- A block ends in a piece of this kind. -/
def Piece.isTerminator : Piece → Bool
  | .inst | .temp_patch_f_flags | .call _ => false
  | _ => true

/-- Why lifting does not return. -/
inductive Crash
  /-- inside `DecodeInstruction` or `LiftIntoBlock` -/
  | lifter
  /-- `CHECK(inst.branch_not_taken_pc != 0)` -/
  | branch_not_taken_pc
  /-- `FindIndirectBrAddress` finds no load from an `X` register -/
  | indirect_address
  /-- `CHECK(kArchAArch64LittleEndian != arch_name)` -/
  | category
  /-- `CHECK(!bb_reg_info_node_map.contains(block))` -/
  | bb_reg_info_node_map
  /-- the results of a semantics call cannot be stored -/
  | store
  /-- the address is no function entry -/
  | declaration
  deriving DecidableEq, Repr

/-- The effect of the loop body on one address.  `written` has the registers that the
semantics call of the block writes, if there is one. -/
structure Emitted where
  block : List Piece
  targets : List Addr := []
  indirect : Bool := false
  callees : List Addr := []
  patched : Bool := false
  written : List (List WriteReg) := []

/-- The results of one semantics call are stored.  A single result is stored without a look
at `IGNORE_WRITE_TO_XZR`, for which `LoadRegAddress` finds no register. -/
def storesResults : List WriteReg → Bool
  | [w] => !w.ignored && w.casts
  | write_regs => write_regs.all fun w => w.ignored || w.casts

/-- The first register the block loads from whose name starts with `X`. -/
def findIndirectBrAddress (loads : List String) : Option String :=
  loads.find? fun name => name.toList.head? = some 'X'

/-- `CHECK(inst.branch_not_taken_pc != 0)` in `GetOrCreateBranchNotTakenBlock`. -/
def checkNotTaken (inst : Instruction) (e : Emitted) : Except Crash Emitted :=
  if inst.branch_not_taken_pc = 0 then .error .branch_not_taken_pc else .ok e

/-- `FindIndirectBrAddress(block)`. -/
def checkIndirect (loads : List String) (e : Emitted) : Except Crash Emitted :=
  match findIndirectBrAddress loads with
  | none => .error .indirect_address
  | some _ => .ok e

/-- The `switch` over the categories.  `pre` is what the block already holds, and `written`
what its semantics call writes. -/
def connectBlocks (m : TraceManager) (inst : Instruction) (loads : List String)
    (pre : List Piece) (patched : Bool) (written : List (List WriteReg)) :
    Except Crash Emitted :=
  match inst.category with
  | .invalid | .error => .ok { block := pre ++ [.tailCall .error], patched, written }
  | .normal | .noOp =>
      .ok { block := pre ++ [.br inst.next_pc], targets := [inst.next_pc], patched, written }
  | .directJump =>
      .ok
        { block := pre ++ [.br inst.branch_taken_pc]
          targets := [inst.branch_taken_pc], patched, written }
  | .indirectJump =>
      checkIndirect loads { block := pre ++ [.brIndirect], indirect := true, patched, written }
  | .asyncHyperCall =>
      if m.isFunctionEntry inst.next_pc then
        .ok { block := pre ++ [.ret], patched, written }
      else
        .ok { block := pre ++ [.br inst.next_pc], targets := [inst.next_pc], patched, written }
  | .indirectFunctionCall => do
      let e ← checkNotTaken inst
        { block := pre ++ [.call .function_call, .br inst.branch_not_taken_pc]
          targets := [inst.branch_not_taken_pc], patched, written }
      checkIndirect loads e
  | .directFunctionCall =>
      -- a call to the next instruction, or to no function, is a `nop`
      if m.isFunctionEntry inst.branch_taken_pc ∧
          inst.branch_not_taken_pc ≠ inst.branch_taken_pc then
        checkNotTaken inst
          { block := pre ++ [.call (.trace inst.branch_taken_pc), .br inst.branch_not_taken_pc]
            targets := [inst.branch_not_taken_pc], callees := [inst.branch_taken_pc]
            patched, written }
      else
        checkNotTaken inst
          { block := pre ++ [.br inst.branch_not_taken_pc]
            targets := [inst.branch_not_taken_pc], patched, written }
  | .functionReturn => .ok { block := pre ++ [.tailCall .function_return], patched, written }
  | .conditionalBranch =>
      checkNotTaken inst
        { block := pre ++ [.condBr inst.branch_taken_pc inst.branch_not_taken_pc]
          targets := [inst.branch_taken_pc, inst.branch_not_taken_pc], patched, written }
  | .conditionalIndirectJump | .conditionalIndirectFunctionCall
  | .conditionalDirectFunctionCall | .conditionalFunctionReturn
  | .conditionalAsyncHyperCall => .error .category

/-- The loop body for `inst_addr` in the function at `trace_addr`. -/
def liftInst (m : TraceManager) (trace_addr : Addr) (tmp_patch_fn_check : Bool)
    (inst_addr : Addr) : Except Crash Emitted :=
  if inst_addr ≠ trace_addr ∧ m.isFunctionEntry inst_addr then
    .ok { block := [.tailCall (.trace inst_addr)] }
  else if m.readInstructionBytes inst_addr = [] then
    .ok { block := [.tailCall .missing_block] }
  else
    match m.arch inst_addr (m.readInstructionBytes inst_addr) with
    | none => .error .lifter
    | some l =>
        let patch := !tmp_patch_fn_check && m.io_file_xsputn_vma == trace_addr
        -- the patch loads `X0` behind the instruction
        let pre := if patch then [.inst, .temp_patch_f_flags] else [.inst]
        let loads := if patch then l.loads ++ ["X0"] else l.loads
        if l.lifted then
          connectBlocks m l.inst loads pre patch [l.write_regs]
        else
          .ok { block := pre ++ [.tailCall .error], patched := patch }

/-! ### The work list -/

/-- Insertion into a `std::set`. -/
def setInsert (a : Addr) : List Addr → List Addr
  | [] => [a]
  | b :: rest =>
      if a < b then a :: b :: rest else if a = b then b :: rest else b :: setInsert a rest

/-- The state of the lifter within one function. -/
structure Lifting where
  inst_work_list : List Addr
  blocks : Addr → Option (List Piece)
  bb_reg_info_node_map : List Addr
  indirectbr_block : Bool
  lift_all_insn : Bool
  /-- `insn_vma`, while the loop over all slots runs -/
  insn_vma : Option Addr
  /-- the insertions into `trace_work_list` -/
  callees : List Addr
  tmp_patch_fn_check : Bool
  sema_call_written_reg_map : List (List WriteReg)

namespace Lifting

/-- `GetOrCreateBlock`. -/
def getOrCreateBlock (s : Lifting) (a : Addr) : Lifting :=
  match s.blocks a with
  | some _ => s
  | none => { s with blocks := fun b => if b = a then some [] else s.blocks b }

/-- `inst_work_list.insert(pc); GetOrCreateBlock(pc)`. -/
def addTarget (s : Lifting) (a : Addr) : Lifting :=
  ({ s with inst_work_list := setInsert a s.inst_work_list }).getOrCreateBlock a

/-- The block of `a` gets its contents. -/
def emit (s : Lifting) (a : Addr) (e : Emitted) : Lifting :=
  { s with
    blocks := fun b => if b = a then some e.block else s.blocks b
    indirectbr_block := s.indirectbr_block || e.indirect
    callees := e.callees ++ s.callees
    tmp_patch_fn_check := s.tmp_patch_fn_check || e.patched
    sema_call_written_reg_map := e.written ++ s.sema_call_written_reg_map }

/-- The state in which the lifting of a function starts: its entry block branches to the
block of `trace_addr`. -/
def init (trace_addr : Addr) (tmp_patch_fn_check : Bool) : Lifting where
  inst_work_list := [trace_addr]
  blocks := fun b => if b = trace_addr then some [] else none
  bb_reg_info_node_map := []
  indirectbr_block := false
  lift_all_insn := false
  insn_vma := none
  callees := []
  tmp_patch_fn_check := tmp_patch_fn_check
  sema_call_written_reg_map := []

/-- `Add StoreInst for the every semantics functions`: the pass gets through all calls. -/
def storesAll (s : Lifting) : Bool := s.sema_call_written_reg_map.all storesResults

/-- The final pass: a block without terminator calls `missing_block`. -/
def addMissingTerminators (s : Lifting) : Lifting :=
  { s with blocks := fun b => (s.blocks b).map fun block =>
      if block.any Piece.isTerminator then block else block ++ [.tailCall .missing_block] }

/-- One address popped from the work list. -/
def liftPopped (m : TraceManager) (trace_addr : Addr) (s : Lifting) (inst_addr : Addr) :
    Lifting ⊕ Except Crash Lifting :=
  let s := s.getOrCreateBlock inst_addr
  if (s.blocks inst_addr).getD [] ≠ [] then
    .inl s
  else if inst_addr ∈ s.bb_reg_info_node_map then
    .inr (.error .bb_reg_info_node_map)
  else
    let s := { s with bb_reg_info_node_map := inst_addr :: s.bb_reg_info_node_map }
    match liftInst m trace_addr s.tmp_patch_fn_check inst_addr with
    | .error c => .inr (.error c)
    | .ok e => .inl (e.targets.foldl addTarget (s.emit inst_addr e))

end Lifting

/-- One turn of the lifter on the function at `trace_addr`. -/
def liftStep (m : TraceManager) (trace_addr : Addr) (s : Lifting) :
    Lifting ⊕ Except Crash Lifting :=
  match s.insn_vma with
  | some insn_vma =>
      -- the loop over all slots
      if insn_vma < m.getFuncVMA_E trace_addr then
        let work := if (s.blocks insn_vma).isSome then s.inst_work_list
          else setInsert insn_vma s.inst_work_list
        .inl { s with inst_work_list := work, insn_vma := some (insn_vma + 4) }
      else
        .inl { s with lift_all_insn := true, insn_vma := none }
  | none =>
      match s.inst_work_list with
      | inst_addr :: rest => { s with inst_work_list := rest }.liftPopped m trace_addr inst_addr
      | [] =>
          if !s.lift_all_insn && s.indirectbr_block then
            .inl { s with insn_vma := some trace_addr }
          else if s.indirectbr_block && !s.storesAll then
            .inr (.error .store)
          else
            .inr (.ok s.addMissingTerminators)

/-! ### The functions -/

/-- The state of the lifter across functions. -/
structure TraceLifter where
  trace_work_list : List Addr
  /-- `manager.traces`, with the state each function was left in -/
  traces : Addr → Option Lifting
  tmp_patch_fn_check : Bool

/-- The loop over `trace_work_list`; `none` when the fuel runs out. -/
def liftTraces (m : TraceManager) : Nat → TraceLifter → Option (Except Crash TraceLifter)
  | 0, _ => none
  | n + 1, t =>
      match t.trace_work_list with
      | [] => some (.ok t)
      | trace_addr :: rest =>
          -- lifted before, by another caller
          if (t.traces trace_addr).isSome then
            liftTraces m n { t with trace_work_list := rest }
          else if m.isFunctionEntry trace_addr then
            match Machine.run (liftStep m trace_addr) n
                (.init trace_addr t.tmp_patch_fn_check) with
            | none => none
            | some (.error c) => some (.error c)
            | some (.ok s) =>
                liftTraces m n
                  { trace_work_list := s.callees.foldr setInsert rest
                    traces := fun a => if a = trace_addr then some s else t.traces a
                    tmp_patch_fn_check := s.tmp_patch_fn_check }
          else
            some (.error .declaration)

/-- `TraceLifter::Impl::Lift(addr)`, after the calls that left `t`. -/
def TraceLifter.lift (m : TraceManager) (fuel : Nat) (t : TraceLifter) (addr : Addr) :
    Option (Except Crash TraceLifter) :=
  liftTraces m fuel { t with trace_work_list := [addr] }

end Elfconv
