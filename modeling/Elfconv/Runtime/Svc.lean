/-
Elfconv/Runtime/Svc.lean

The system-call emulation as a stateful program.

`Svc` is a state monad over `World` that can stop: `elfconv_runtime_error` and
`exit` do not return.  The host is a stream of replies: the `k`-th host call of a
run gets the `k`-th reply, so quantifying over the stream is quantifying over
every result the host may give.  Each call is logged with the bits of its
arguments.

The section after the primitives says what each of them leaves alone.  A `Footprint`
lists the registers a piece of code may write, the host functions it may call, and
whether it may write guest memory or move the heap cursor; `Keeps` is the frame
condition that goes with it.
-/
import Elfconv.Lib.Frame
import Elfconv.Runtime.Machine

namespace Elfconv

open Frame

/-- The host functions the handlers call. -/
inductive HostFn
  | dup | tcgetattr | mkdirat | unlinkat | statfs | truncate | ftruncate | openat | close
  | lseek | read | write | writev | readlinkat | fsync | syscall | gettid | clock_gettime
  | tgkill | kill | sigaction | uname | gettimeofday | getrusage | getpid | getppid | getuid
  | geteuid | getgid | getegid | wait4 | getentropy | fstat | perror
  deriving DecidableEq, Repr

/-- A host call: the function and the bits of its arguments, each zero-extended. -/
structure HostCall where
  fn : HostFn
  args : List (BitVec 64)
  deriving DecidableEq, Repr

/-- What the host gives back: the returned integer (sign-extended), the `errno` it
sets (if it sets one), the bytes it stores through a pointer argument, and the
fields of a structure it fills in a local of the handler. -/
structure HostReply where
  ret : BitVec 64
  errno : Option (BitVec 32)
  bytes : List (BitVec 8)
  field : Nat → BitVec 64

/-- Why a run does not return. -/
inductive Halt
  /-- `elfconv_runtime_error` with this format string -/
  | runtimeError (fmt : String)
  /-- `exit(code)` -/
  | exit (code : BitVec 32)
  deriving DecidableEq, Repr

/-- The guest, its memory and what the host will answer. -/
structure World where
  cpu : State
  rm : RuntimeManager
  mem : HostMem
  errno : BitVec 32
  host : Nat → HostReply
  calls : List HostCall

/-- The reply to the next host call. -/
def World.reply (w : World) : HostReply := w.host w.calls.length

/-- The state after a host call. -/
def World.called (w : World) (fn : HostFn) (args : List (BitVec 64)) : World :=
  { w with
    calls := w.calls ++ [⟨fn, args⟩]
    errno := w.reply.errno.getD w.errno }

/-- The width in bits of `unsigned long`, `size_t` and pointers where the runtime is
compiled: 64 for a native host and wasm64, 32 for wasm32. -/
structure DataModel where
  ulong : Nat

/-- A handler changes the world, or the program ends in it. -/
abbrev Svc := StateT World (Except Halt)

namespace Svc

/-! ### Primitives -/

/-- `elfconv_runtime_error`, by its format. -/
def error {α : Type} (fmt : String) : Svc α := throw (.runtimeError fmt)

/-- `exit`, with the low word of the argument. -/
def exit {α : Type} (code : BitVec 32) : Svc α := throw (.exit code)

/-- `Xn_Q`, `SYSNUMREG` as read. -/
def getQ (r : Gpr) : Svc (BitVec 64) := reads fun w => w.cpu.qword r

/-- `Xn_D` as read. -/
def getD (r : Gpr) : Svc (BitVec 32) := reads fun w => w.cpu.dword r

/-- `Xn_Q = v`. -/
def setQ (r : Gpr) (v : BitVec 64) : Svc PUnit := 
  updates fun w => (⟨⟩, { w with cpu := w.cpu.setQword r v })

/-- `Xn_D = v`. -/
def setD (r : Gpr) (v : BitVec 32) : Svc PUnit := 
  updates fun w => (⟨⟩, { w with cpu := w.cpu.setDword r v })

/-- `errno = v`. -/
def setErrno (v : BitVec 32) : Svc PUnit := updates fun w => (⟨⟩, { w with errno := v })

/-- The host's `errno`. -/
def getErrno : Svc (BitVec 32) := reads fun w => w.errno

/-- `runtime_manager->heap_memory` -/
def getHeap : Svc MappedMemory := reads fun w => w.rm.heap_memory

/-- `heap_memory->heap_cur = v`. -/
def setHeapCur (v : Addr) : Svc PUnit := 
  updates fun w => (⟨⟩, { w with rm.heap_memory.heap_cur := v })

/-- A call of the host: it is recorded, and the next reply is taken. -/
def hostCall (fn : HostFn) (args : List (BitVec 64)) : Svc HostReply :=
  updates fun w => (w.reply, w.called fn args)

/-- `TranslateVMA(vma_addr)`, which raises the runtime error on an unmapped address. -/
def translateVMA (vma_addr : Addr) : Svc HostPtr := fun w =>
  match w.rm.translateVMA vma_addr with
  | some p => .ok (p, w)
  | none => .error (.runtimeError "[ERROR] The accessed memory is not mapped.")

/-- Bytes go to a host pointer. -/
def memcpy (dst : HostPtr) (bs : List (BitVec 8)) : Svc PUnit := 
  updates fun w => (⟨⟩, { w with mem := w.mem.write dst bs })

/-- Bytes come from a host pointer. -/
def load (src : HostPtr) (n : Nat) : Svc (List (BitVec 8)) :=
  reads fun w => w.mem.read src n

/-! ### Runs of the primitives -/

section Runs

variable (w w' : World) (r : Gpr)

@[simp] theorem pure_run {α : Type} (a : α) : (pure a : Svc α) w = .ok (a, w) := rfl

@[simp] theorem error_run {α : Type} (fmt : String) :
    (error fmt : Svc α) w = .error (.runtimeError fmt) := rfl

@[simp] theorem getQ_run : getQ r w = .ok (w.cpu.qword r, w) := rfl

@[simp] theorem getD_run : getD r w = .ok (w.cpu.dword r, w) := rfl

@[simp] theorem setQ_run (v : BitVec 64) :
    setQ r v w = .ok (⟨⟩, { w with cpu := w.cpu.setQword r v }) := rfl

@[simp] theorem setD_run (v : BitVec 32) :
    setD r v w = .ok (⟨⟩, { w with cpu := w.cpu.setDword r v }) := rfl

@[simp] theorem setErrno_run (v : BitVec 32) :
    setErrno v w = .ok (⟨⟩, { w with errno := v }) := rfl

@[simp] theorem getHeap_run : getHeap w = .ok (w.rm.heap_memory, w) := rfl

@[simp] theorem setHeapCur_run (v : Addr) :
    setHeapCur v w = .ok (⟨⟩, { w with rm.heap_memory.heap_cur := v }) := rfl

@[simp] theorem hostCall_run (fn : HostFn) (args : List (BitVec 64)) :
    hostCall fn args w = .ok (w.reply, w.called fn args) := rfl

@[simp] theorem called_cpu (fn : HostFn) (args : List (BitVec 64)) :
    (w.called fn args).cpu = w.cpu := rfl

@[simp] theorem called_mem (fn : HostFn) (args : List (BitVec 64)) :
    (w.called fn args).mem = w.mem := rfl

@[simp] theorem called_rm (fn : HostFn) (args : List (BitVec 64)) :
    (w.called fn args).rm = w.rm := rfl

@[simp] theorem memcpy_run (dst : HostPtr) (bs : List (BitVec 8)) :
    memcpy dst bs w = .ok (⟨⟩, { w with mem := w.mem.write dst bs }) := rfl

/-- A translation that returns changes nothing. -/
@[simp] theorem translateVMA_ok {a : Addr} {p : HostPtr} :
    translateVMA a w = .ok (p, w') ↔ w.rm.translateVMA a = some p ∧ w' = w := by
  unfold translateVMA
  rcases w.rm.translateVMA a with - | q
  · simp
  · simp [eq_comm]

end Runs

/-! ### What a run leaves alone -/

/-- What a piece of code may touch: guest registers, host functions, guest memory, and
the cursor of the heap. -/
structure Footprint where
  regs : List Gpr
  fns : List HostFn
  mem : Bool
  heap : Bool

/-- `w` and `w'` differ inside the footprint only. -/
structure Keeps (fp : Footprint) (w w' : World) : Prop where
  gpr : ∀ r, r ∉ fp.regs → w'.cpu.gpr r = w.cpu.gpr r
  simd : w'.cpu.simd = w.cpu.simd
  ecv_nzcv : w'.cpu.ecv_nzcv = w.cpu.ecv_nzcv
  host : w'.host = w.host
  calls : ∃ cs, w'.calls = w.calls ++ cs ∧ ∀ c ∈ cs, c.fn ∈ fp.fns
  mem : fp.mem = false → w'.mem = w.mem
  rm : fp.heap = false → w'.rm = w.rm

instance (fp : Footprint) : Std.Refl (Keeps fp) where
  refl _ := ⟨fun _ _ => rfl, rfl, rfl, rfl, ⟨[], by simp⟩, fun _ => rfl, fun _ => rfl⟩

instance (fp : Footprint) : IsTrans World (Keeps fp) where
  trans w m w' h₁ h₂ := by
    obtain ⟨cs₁, e₁, f₁⟩ := h₁.calls
    obtain ⟨cs₂, e₂, f₂⟩ := h₂.calls
    refine ⟨fun r hr => (h₂.gpr r hr).trans (h₁.gpr r hr), h₂.simd.trans h₁.simd,
      h₂.ecv_nzcv.trans h₁.ecv_nzcv, h₂.host.trans h₁.host, ⟨cs₁ ++ cs₂, ?_, ?_⟩,
      fun h => (h₂.mem h).trans (h₁.mem h), fun h => (h₂.rm h).trans (h₁.rm h)⟩
    · rw [e₂, e₁, List.append_assoc]
    · intro c hc
      exact (List.mem_append.mp hc).elim (f₁ c) (f₂ c)

section Keeps

variable {fp : Footprint}

/-- A change outside registers, memory, areas and log keeps every footprint. -/
theorem Keeps.of_eq {w w' : World} (hcpu : w'.cpu = w.cpu) (hhost : w'.host = w.host)
    (hcalls : w'.calls = w.calls) (hmem : fp.mem = false → w'.mem = w.mem)
    (hrm : fp.heap = false → w'.rm = w.rm) : Keeps fp w w' :=
  ⟨fun _ _ => by rw [hcpu], by rw [hcpu], by rw [hcpu], hhost,
    ⟨[], by simp [hcalls], by simp⟩, hmem, hrm⟩

/-- A run that ends keeps whatever it is asked to. -/
theorem keeps_error {α : Type} (fmt : String) : Framed (Keeps fp) (error fmt : Svc α) :=
  framed_throw _

theorem keeps_exit {α : Type} (code : BitVec 32) : Framed (Keeps fp) (exit code : Svc α) :=
  framed_throw _

theorem keeps_getQ (r : Gpr) : Framed (Keeps fp) (getQ r) :=
  framed_reads _

theorem keeps_getD (r : Gpr) : Framed (Keeps fp) (getD r) :=
  framed_reads _

/-- A register of the footprint may be written. -/
theorem keeps_setQ {r : Gpr} (hr : r ∈ fp.regs) (v : BitVec 64) :
    Framed (Keeps fp) (setQ r v) :=
  framed_updates fun _ =>
    ⟨fun _ h => State.gpr_setQword_of_ne _ _ fun e => h (e ▸ hr), rfl, rfl, rfl,
      ⟨[], by simp⟩, fun _ => rfl, fun _ => rfl⟩

/-- A register of the footprint may be written in its low half. -/
theorem keeps_setD {r : Gpr} (hr : r ∈ fp.regs) (v : BitVec 32) :
    Framed (Keeps fp) (setD r v) :=
  framed_updates fun _ =>
    ⟨fun _ h => State.gpr_setDword_of_ne _ _ fun e => h (e ▸ hr), rfl, rfl, rfl,
      ⟨[], by simp⟩, fun _ => rfl, fun _ => rfl⟩

theorem keeps_setErrno (v : BitVec 32) : Framed (Keeps fp) (setErrno v) :=
  framed_updates fun _ => .of_eq rfl rfl rfl (fun _ => rfl) fun _ => rfl

theorem keeps_getErrno : Framed (Keeps fp) getErrno :=
  framed_reads _

theorem keeps_getHeap : Framed (Keeps fp) getHeap :=
  framed_reads _

/-- The cursor may move where the footprint has the heap. -/
theorem keeps_setHeapCur (h : fp.heap = true) (v : Addr) :
    Framed (Keeps fp) (setHeapCur v) :=
  framed_updates fun _ => .of_eq rfl rfl rfl (fun _ => rfl) fun h' => by simp [h] at h'

/-- A host function of the footprint may be called. -/
theorem keeps_hostCall {fn : HostFn} (h : fn ∈ fp.fns) (args : List (BitVec 64)) :
    Framed (Keeps fp) (hostCall fn args) :=
  framed_updates fun _ => ⟨fun _ _ => rfl, rfl, rfl, rfl, ⟨[⟨fn, args⟩], rfl, by simpa using h⟩,
    fun _ => rfl, fun _ => rfl⟩

theorem keeps_translateVMA (a : Addr) : Framed (Keeps fp) (translateVMA a) := by
  intro w p w' h
  unfold translateVMA at h
  split at h
  · obtain ⟨-, rfl⟩ : _ = p ∧ w = w' := by simpa using h
    exact Std.Refl.refl _
  · cases h

/-- Memory may be written where the footprint has it. -/
theorem keeps_memcpy (h : fp.mem = true) (dst : HostPtr) (bs : List (BitVec 8)) :
    Framed (Keeps fp) (memcpy dst bs) :=
  framed_updates fun _ => .of_eq rfl rfl rfl (fun h' => by simp [h] at h') fun _ => rfl

theorem keeps_load (src : HostPtr) (n : Nat) : Framed (Keeps fp) (load src n) :=
  framed_reads _

end Keeps

end Svc

end Elfconv
