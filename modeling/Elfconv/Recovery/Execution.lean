/-
Elfconv/Recovery/Execution.lean

How a lifted program runs.

`hostStep` interprets the blocks of a `LiftedImage` piece by piece: activations of lifted
functions on the stack of the host, calls between lifted functions, the runtime calls
`__remill_function_call`, `__remill_jump`, `__remill_missing_block`,
`__remill_function_return` and `__remill_error`, and the lookups of the indirect branches
with their caches.

`instStep` is the same program instruction by instruction: a program counter, the function
it is in, and the calls that have not returned; no blocks, no tables, no caches, and no
activations of tail calls.

`simulates` says that the host machine does exactly what the instruction machine does.

The code of `LiftIntoBlock` is a parameter, `InstCode`.  The entry block of a function,
which branches to the block of its first instruction, is left out, and the stack of the
host has no bound.
-/
import Elfconv.Lib.Simulation
import Elfconv.Recovery.Blocks

namespace Elfconv

variable {G : Type}

/-! ### The lifted program on the host -/

/-- What the code of the instructions does to the state `G` of the guest: `exec fn a` is the
code for the instruction at `a` in the function lifted from `fn`, with the value it leaves in
`BRANCH_TAKEN`; `none` when the run ends there.  `read` gives the value of a register under
the name it is loaded by. -/
structure InstCode (G : Type) where
  exec : Addr → Addr → G → Option (G × Bool)
  read : G → String → Addr
  temp_patch_f_flags : G → G

/-- How a run ends. -/
inductive Ending (G : Type)
  /-- the function the run started in returns -/
  | returned (state : G)
  /-- the code of an instruction ends the run -/
  | trap
  /-- `__remill_error` -/
  | error
  /-- the runtime does not find the target of an indirect branch -/
  | branch (e : BranchError)
  /-- a block without terminator, or an indirect branch without address -/
  | malformed
  deriving DecidableEq

/-- An activation of a lifted function: what is left of the current block. -/
structure Activation where
  fn : Addr
  vma : Addr
  rest : List Piece
  branch_taken : Bool
  /-- the value `FindIndirectBrAddress` finds in the block -/
  indirect_addr : Option Addr

/-- The lifted program as it runs: the calls in progress, the guest's state and the runtime. -/
structure Host (G : Type) where
  top : Activation
  stack : List Activation
  state : G
  runtime : BranchRuntime

namespace LiftedImage

variable {m : TraceManager} (im : LiftedImage m)

/-- The block of `a` in the function lifted from `fn`. -/
def blockOf (fn a : Addr) : List Piece :=
  ((im.lifter.traces fn).bind fun s => s.blocks a).getD []

/-- The entry of the tables for `fn`. -/
def functionOf (fn : Addr) : LiftedFunction :=
  ((im.lifter.traces fn).map fun s => s.function fn).getD ⟨fn, [], false⟩

/-- A call of the function lifted from `a`. -/
def activation (a : Addr) : Activation where
  fn := a
  vma := a
  rest := im.blockOf a a
  branch_taken := false
  indirect_addr := none

/-- A branch to the block of `dst` in the same function. -/
def goto (t : Activation) (dst : Addr) : Activation :=
  { t with vma := dst, rest := im.blockOf t.fn dst }

end LiftedImage

/-- The names of the registers the code of the instruction at `a` loads from. -/
def TraceManager.loads (m : TraceManager) (a : Addr) : List String :=
  ((m.arch a (m.readInstructionBytes a)).map (·.loads)).getD []

section HostMachine

variable {m : TraceManager} (im : LiftedImage m) (code : InstCode G)

/-- The activation `t` calls the function at `a`, and goes on with `t.rest`. -/
def Host.enter (h : Host G) (t : Activation) (a : Addr) : Host G :=
  { h with top := im.activation a, stack := t :: h.stack }

/-- Where an indirect branch takes the activation `t`. -/
def Host.control (h : Host G) (t : Activation) :
    Except BranchError (Control Unit × BranchRuntime) → Host G ⊕ Ending G
  | .error e => .inr (.branch e)
  | .ok (.block (.lifted _ bb_vma), runtime) =>
      .inl { h with top := im.goto t bb_vma, runtime }
  | .ok (.block (.br_to_func _), _) => .inr .malformed
  | .ok (.call c, runtime) => .inl ({ h with runtime }.enter im t c.fn.entry)
  | .ok (.tailCall c, runtime) =>
      .inl ({ h with runtime }.enter im { t with rest := [.ret] } c.fn.entry)

/-- A call from the activation `t`. -/
def Host.call (h : Host G) (t : Activation) : Callee → Host G ⊕ Ending G
  | .trace a => .inl (h.enter im t a)
  | .function_call =>
      match t.indirect_addr with
      | none => .inr .malformed
      | some addr => h.control im t (h.runtime.exec (.blr () addr))
  -- both do nothing but return
  | .missing_block | .function_return => .inl { h with top := t }
  | .error => .inr .error

/-- One piece of the current block. -/
def hostStep (h : Host G) : Host G ⊕ Ending G :=
  match h.top.rest with
  | [] => .inr .malformed
  | piece :: rest =>
      let t : Activation := { h.top with rest }
      match piece with
      | .inst =>
          match code.exec t.fn t.vma h.state with
          | none => .inr .trap
          | some (state, branch_taken) =>
              let addr := (findIndirectBrAddress (m.loads t.vma)).map (code.read h.state)
              .inl { h with top := { t with branch_taken, indirect_addr := addr }, state }
      -- the patch loads `X0`, so a branch behind it finds an address in any case
      | .temp_patch_f_flags =>
          let addr := t.indirect_addr.or (some (code.read h.state "X0"))
          .inl { h with
            top := { t with indirect_addr := addr }
            state := code.temp_patch_f_flags h.state }
      | .call callee => h.call im t callee
      -- nothing but the return is left of the caller
      | .tailCall callee => h.call im { t with rest := [.ret] } callee
      | .ret =>
          match h.stack with
          | [] => .inr (.returned h.state)
          | caller :: stack => .inl { h with top := caller, stack }
      | .br dst => .inl { h with top := im.goto t dst }
      | .condBr taken not_taken =>
          .inl { h with top := im.goto t (if t.branch_taken then taken else not_taken) }
      | .brIndirect =>
          match t.indirect_addr with
          | none => .inr .malformed
          | some addr =>
              h.control im t (h.runtime.exec (.br (im.functionOf t.fn) () addr))

/-- `main` calls the function at `f`. -/
def LiftedImage.start (f : Addr) (state : G) : Host G where
  top := im.activation f
  stack := []
  state := state
  runtime := im.program.tables.main

end HostMachine

/-! ### The program instruction by instruction -/

/-- A point of the guest program: the program counter, the function it belongs to, and the
calls that have not returned, each with the function of the call and the return address. -/
structure Position (G : Type) where
  fn : Addr
  pc : Addr
  returns : List (Addr × Addr)
  state : G

/-- The patch goes behind the first instruction of `_IO_file_xsputn`. -/
def TraceManager.patchedAt (m : TraceManager) (fn pc : Addr) : Bool :=
  pc == fn && m.io_file_xsputn_vma == fn

section InstMachine

variable {m : TraceManager} (im : LiftedImage m) (code : InstCode G)

/-- Control gets to `pc` within the function: where another function starts, that function
takes over. -/
def Position.arrive (m : TraceManager) (x : Position G) (pc : Addr) : Position G :=
  if pc ≠ x.fn ∧ m.isFunctionEntry pc then { x with fn := pc, pc } else { x with pc }

/-- The function returns, to the innermost call that has not returned. -/
def Position.leave (m : TraceManager) (x : Position G) : Position G ⊕ Ending G :=
  match x.returns with
  | [] => .inr (.returned x.state)
  | (fn, pc) :: returns => .inl ({ x with fn, returns }.arrive m pc)

/-- Control gets to the function at `a`. -/
def Position.enter (x : Position G) (a : Addr) : Position G := { x with fn := a, pc := a }

/-- The function at `a` is called, to return to `pc`. -/
def Position.call (x : Position G) (a pc : Addr) : Position G :=
  { x with fn := a, pc := a, returns := (x.fn, pc) :: x.returns }

/-- Where an instruction leads that left `branch_taken` and `addr`. -/
def Position.next (x : Position G) (inst : Instruction) (branch_taken : Bool)
    (addr : Option Addr) : Position G ⊕ Ending G :=
  match inst.category with
  | .normal | .noOp => .inl (x.arrive m inst.next_pc)
  | .asyncHyperCall =>
      if m.isFunctionEntry inst.next_pc then x.leave m else .inl (x.arrive m inst.next_pc)
  | .directJump => .inl (x.arrive m inst.branch_taken_pc)
  | .conditionalBranch =>
      .inl (x.arrive m (if branch_taken then inst.branch_taken_pc else inst.branch_not_taken_pc))
  | .directFunctionCall =>
      if m.isFunctionEntry inst.branch_taken_pc ∧
          inst.branch_not_taken_pc ≠ inst.branch_taken_pc then
        .inl (x.call inst.branch_taken_pc inst.branch_not_taken_pc)
      else .inl (x.arrive m inst.branch_not_taken_pc)
  | .functionReturn => x.leave m
  | .indirectFunctionCall =>
      match addr with
      | none => .inr .malformed
      | some t =>
          if im.program.entries.contains t then .inl (x.call t inst.branch_not_taken_pc)
          else .inr (.branch .blr)
  | .indirectJump =>
      match addr with
      | none => .inr .malformed
      | some t =>
          if t ≠ UINT64_MAX ∧ (im.functionOf x.fn).lifted_block_map.contains t then
            .inl (x.arrive m t)
          else if im.program.entries.contains x.fn ∨ t = UINT64_MAX then
            if im.program.entries.contains t then .inl (x.enter t) else .inr (.branch .br)
          else .inr (.branch .block_address)
  | .invalid | .error => .inr .error
  | .conditionalIndirectJump | .conditionalIndirectFunctionCall
  | .conditionalDirectFunctionCall | .conditionalFunctionReturn
  | .conditionalAsyncHyperCall => .inr .malformed

/-- What `FindIndirectBrAddress` finds in the block of an instruction that takes the guest
from `before` to `after`. -/
def InstCode.indirectAddr (loads : List String) (patched : Bool) (before after : G) :
    Option Addr :=
  let addr := (findIndirectBrAddress loads).map (code.read before)
  if patched then addr.or (some (code.read after "X0")) else addr

/-- The state behind the patch, where there is one. -/
def InstCode.behindPatch (patched : Bool) (state : G) : G :=
  if patched then code.temp_patch_f_flags state else state

/-- One instruction. -/
def instStep (x : Position G) : Position G ⊕ Ending G :=
  if m.readInstructionBytes x.pc = [] then x.leave m
  else
    match m.arch x.pc (m.readInstructionBytes x.pc) with
    | none => .inr .malformed
    | some l =>
        match code.exec x.fn x.pc x.state with
        | none => .inr .trap
        | some (state, branch_taken) =>
            let patched := m.patchedAt x.fn x.pc
            if l.lifted then
              { x with state := code.behindPatch patched state }.next im l.inst branch_taken
                (code.indirectAddr l.loads patched x.state state)
            else .inr .error

/-- The guest program is started at the function `f`. -/
def Position.start (f : Addr) (state : G) : Position G where
  fn := f
  pc := f
  returns := []
  state := state

end InstMachine

end Elfconv
