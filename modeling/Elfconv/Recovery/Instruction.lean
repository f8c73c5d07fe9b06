/-
Elfconv/Recovery/Instruction.lean

What `TraceLifter::Impl::Lift` sees of a program: the executable bytes, the table of
functions, and the decoded instructions.

The AArch64 decoder and the instruction lifter are a parameter, `Arch`: for an address
and the bytes read there they give the instruction with its category and program
counters, whether `LiftIntoBlock` returned `kLiftedInstruction`, the names of the
registers the emitted block loads from, and the registers its call of the semantics
function writes.  `none` stands for a decoder or lifter that does not return (a `CHECK`, a
`LOG(FATAL)` or an exception).
-/
import Elfconv.Runtime.Machine

namespace Elfconv

/-- `Instruction::Category`. -/
inductive Category
  | invalid | normal | noOp | error
  | directJump | indirectJump | conditionalIndirectJump
  | indirectFunctionCall | conditionalIndirectFunctionCall
  | directFunctionCall | conditionalDirectFunctionCall
  | functionReturn | conditionalFunctionReturn
  | conditionalBranch | asyncHyperCall | conditionalAsyncHyperCall
  deriving DecidableEq, Repr

/-- The fields of `Instruction` the work list reads. -/
structure Instruction where
  category : Category
  next_pc : Addr
  branch_taken_pc : Addr
  branch_not_taken_pc : Addr
  deriving DecidableEq, Repr

/-- A register that a semantics call writes, as the storing of its result sees it: whether
it is `IGNORE_WRITE_TO_XZR`, and whether `CastFromInst` gets past its checks on the result. -/
structure WriteReg where
  ignored : Bool
  casts : Bool
  deriving DecidableEq, Repr

/-- The outcome of `DecodeInstruction` and `LiftIntoBlock`.  `write_regs` is the entry of
`sema_call_written_reg_map`, for an instruction that is lifted. -/
structure LiftedInst where
  inst : Instruction
  lifted : Bool
  loads : List String
  write_regs : List WriteReg

/-- `DecodeInstruction` and `LiftIntoBlock` together, of an address and its bytes. -/
abbrev Arch := Addr → List (BitVec 8) → Option LiftedInst

/-- `TraceManager`, with the architecture: the executable bytes, `disasm_funcs` with the
size of each function, and `_io_file_xsputn_vma`. -/
structure TraceManager where
  memory : Addr → Option (BitVec 8)
  disasm_funcs : Addr → Option (BitVec 64)
  io_file_xsputn_vma : Addr
  arch : Arch

namespace TraceManager

variable (m : TraceManager)

/-- A byte of a code section. -/
def tryReadExecutableByte (addr : Addr) : Option (BitVec 8) := m.memory addr

/-- The address is a key of `disasm_funcs`. -/
def isFunctionEntry (addr : Addr) : Bool := (m.disasm_funcs addr).isSome

/-- `vma_s + func_size`, in 64 bits. -/
def getFuncVMA_E (vma_s : Addr) : Addr := vma_s + (m.disasm_funcs vma_s).getD 0

/-- The loop of `ReadInstructionBytes` over the remaining offsets: it stops at an
unreadable byte and at the end of the address space. -/
def readBytesAt (addr : Addr) : List Nat → List (BitVec 8)
  | [] => []
  | i :: is =>
      let byte_addr := addr + BitVec.ofNat 64 i
      if byte_addr < addr then []
      else
        match m.tryReadExecutableByte byte_addr with
        | none => []
        | some byte => byte :: readBytesAt addr is

/-- The longest instruction, `arch->MaxInstructionSize`. -/
def max_inst_bytes : Nat := 4

/-- The bytes of an instruction, fewer than four where memory ends. -/
def readInstructionBytes (addr : Addr) : List (BitVec 8) :=
  m.readBytesAt addr (List.range max_inst_bytes)

end TraceManager

end Elfconv
