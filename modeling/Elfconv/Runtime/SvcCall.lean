/-
Elfconv/Runtime/SvcCall.lean

The three system-call entry points: exact dispatch, frame, and agreement.

`svcCall_eq_handler` is the dispatch: away from the arms without `break`, a system
call clears `errno` and runs its own handler.  With `keeps_handler` this gives the frame
of a whole call.

For the agreement of the targets, each handler that they implement by the same
operation gets its outcome: what it leaves in `X0` and in guest memory, as a function of
the registers, the memory and the host's reply.  The targets differ in what they pass to
the host (WASI renumbers `AT_FDCWD` and the open flags, wasm32 narrows lengths), never in
what they do with the reply.
-/
import Elfconv.Runtime.Effects

namespace Elfconv

open Frame Svc Switch HostMem

/-! ### Dispatch and frame -/

/-- The system calls whose arm has no `break` on target `t`. -/
def Target.fallThrough (t : Target) : List (BitVec 64) := fallLabels t.arms

/-- A label whose arm ends in `break` runs that arm alone. -/
theorem svcCall_eq_handler {t : Target} {w : World}
    (h : w.cpu.qword SYSNUMREG ∉ t.fallThrough) :
    svcCall t w = handler t (w.cpu.qword SYSNUMREG) { w with errno := 0 } :=
  congrFun (runSwitch_eq_bodyOf (m := Svc) h) { w with errno := 0 }

/-- A system call writes no more than the footprint of its number. -/
theorem keeps_svcCall {t : Target} {w w' : World}
    (h : w.cpu.qword SYSNUMREG ∉ t.fallThrough) (hr : svcCall t w = .ok (⟨⟩, w')) :
    Keeps (footprint t (w.cpu.qword SYSNUMREG)) w w' := by
  rw [svcCall_eq_handler h] at hr
  have herrno : Keeps (footprint t (w.cpu.qword SYSNUMREG)) w { w with errno := 0 } :=
    .of_eq rfl rfl rfl (fun _ => rfl) fun _ => rfl
  exact trans_of (Keeps _) herrno (keeps_handler t _ _ ⟨⟩ w' hr)

/-! ### Outcomes -/

/-- `X0` and guest memory after a call. -/
structure Outcome where
  x0 : BitVec 64
  mem : HostMem

/-- The result and the memory that a call leaves. -/
def World.outcome (w : World) : Outcome := ⟨w.cpu.qword X0, w.mem⟩

/-- The outcome of a handler that stores the host's `int` in `X0_D`. -/
def World.replyD (w : World) : Outcome :=
  ⟨(w.cpu.setDword X0 (w.reply.ret.setWidth 32)).qword X0, w.mem⟩

/-- The outcome of a handler that stores the host's 64-bit result in `X0_Q`. -/
def World.replyQ (w : World) : Outcome := ⟨w.reply.ret, w.mem⟩

/-- The outcome of a handler that copies `bs` to the guest address `a` and stores the
host's 64-bit result in `X0_Q`. -/
def World.Copied (w : World) (a : Addr) (bs : List (BitVec 8)) (o : Outcome) : Prop :=
  ∃ p, w.rm.translateVMA a = some p ∧ o = ⟨w.reply.ret, w.mem.write p bs⟩

/-- A copy to the guest has one outcome. -/
theorem World.Copied.unique {w : World} {a : Addr} {bs : List (BitVec 8)} {o₁ o₂ : Outcome}
    (h₁ : w.Copied a bs o₁) (h₂ : w.Copied a bs o₂) : o₁ = o₂ := by
  obtain ⟨p, hp, rfl⟩ := h₁
  obtain ⟨q, hq, rfl⟩ := h₂
  rw [Option.some.inj (hp.symm.trans hq)]

/-- Every returning run of `p` has the outcome `o` of its first state. -/
def HasOutcome (o : World → Outcome) (p : Svc PUnit) : Prop :=
  Framed (fun w w' => w'.outcome = o w) p

section Outcomes

/-- `X0_D = f(args)` gives the low word of the reply. -/
theorem hasOutcome_retD (fn : HostFn) (args : List (BitVec 64)) :
    HasOutcome World.replyD (retD fn args) := by
  intro w _ w' h
  simp only [retD, bind_ok_iff, hostCall_run, setD_run] at h
  obtain ⟨_, _, e, h⟩ := h
  cases e
  cases h
  rfl

/-- `X0_Q = f(args)` gives the whole reply. -/
theorem hasOutcome_retQ (fn : HostFn) (args : List (BitVec 64)) :
    HasOutcome World.replyQ (retQ fn args) := by
  intro w _ w' h
  simp only [retQ, bind_ok_iff, hostCall_run, setQ_run] at h
  obtain ⟨_, _, e, h⟩ := h
  cases e
  cases h
  simp [World.outcome, World.replyQ]

theorem reads_getQ (r : Gpr) : Framed Eq (getQ r) := framed_reads _

theorem reads_getD (r : Gpr) : Framed Eq (getD r) := framed_reads _

theorem reads_load (src : HostPtr) (n : Nat) : Framed Eq (load src n) := framed_reads _

theorem reads_translateVMA (a : Addr) : Framed Eq (translateVMA a) := by
  intro w p w' h
  exact ((translateVMA_ok w w').mp h).2.symm

theorem reads_translateIovecs (m : DataModel) : ∀ (n : Nat) (vec : HostPtr),
    Framed Eq (translateIovecs m vec n)
  | 0, _ => framed_pure _
  | n + 1, _ =>
      framed_bind (reads_load _ _) fun _ => framed_bind (reads_translateVMA _) fun _ =>
        framed_bind (reads_load _ _) fun _ =>
          framed_bind (reads_translateIovecs m n _) fun _ => framed_pure _

theorem outcome_sysTruncate (m : DataModel) : HasOutcome World.replyD (sysTruncate m) :=
  framed_after (reads_getQ _) fun _ => framed_after (reads_translateVMA _) fun _ =>
    framed_after (reads_getQ _) fun _ => hasOutcome_retD _ _

theorem outcome_sysFtruncate (m : DataModel) : HasOutcome World.replyD (sysFtruncate m) :=
  framed_after (reads_getQ _) fun _ => framed_after (reads_getQ _) fun _ =>
    hasOutcome_retD _ _

theorem outcome_sysLseek (m : DataModel) : HasOutcome World.replyD (sysLseek m) :=
  framed_after (reads_getD _) fun _ => framed_after (reads_getQ _) fun _ =>
    framed_after (reads_getD _) fun _ => hasOutcome_retD _ _

theorem outcome_sysWrite (m : DataModel) : HasOutcome World.replyQ (sysWrite m) :=
  framed_after (reads_getD _) fun _ => framed_after (reads_getQ _) fun _ =>
    framed_after (reads_translateVMA _) fun _ => framed_after (reads_getQ _) fun _ =>
      hasOutcome_retQ _ _

theorem outcome_sysWritev (m : DataModel) : HasOutcome World.replyQ (sysWritev m) :=
  framed_after (reads_getQ _) fun _ => framed_after (reads_getQ _) fun _ =>
    framed_after (reads_getQ _) fun _ => framed_after (reads_translateVMA _) fun _ =>
      framed_after (reads_translateIovecs m _ _) fun _ => hasOutcome_retQ _ _

/-- `read` copies no more than it was asked for. -/
theorem outcome_sysRead (m : DataModel) {w w' : World} (h : sysRead m w = .ok (⟨⟩, w')) :
    w.Copied (w.cpu.qword X1) (w.reply.bytes.take (m.cast (w.cpu.qword X2)).toNat)
      w'.outcome := by
  simp only [sysRead, bind_ok_iff, getQ_run, getD_run, hostCall_run, memcpy_run, setQ_run,
    translateVMA_ok] at h
  obtain ⟨_, _, e₁, p, _, ⟨hp, rfl⟩, _, _, e₂, _, _, e₃, _, _, e₄, _, _, e₅, e₆⟩ := h
  cases e₁; cases e₂; cases e₃; cases e₄; cases e₅; cases e₆
  exact ⟨p, hp, by simp [World.outcome]⟩

/-- `readlinkat` copies no more than it was asked for. -/
theorem outcome_sysReadlinkat {w w' : World} (h : sysReadlinkat w = .ok (⟨⟩, w')) :
    w.Copied (w.cpu.qword X2) (w.reply.bytes.take (w.cpu.dword X3).toNat) w'.outcome := by
  simp only [sysReadlinkat, bind_ok_iff, getQ_run, getD_run, hostCall_run, memcpy_run, setQ_run,
    translateVMA_ok] at h
  obtain ⟨_, _, e₁, _, _, ⟨-, rfl⟩, _, _, e₂, p, _, ⟨hp, rfl⟩, _, _, e₃, _, _, e₄, _, _, e₅,
    _, _, e₆, e₇⟩ := h
  cases e₁; cases e₂; cases e₃; cases e₄; cases e₅; cases e₆; cases e₇
  exact ⟨p, hp, by simp [World.outcome]⟩

/-- The time goes to the guest, as two words of 64 bits. -/
theorem outcome_storeTimespec {r : HostReply} {nsec : BitVec 64} {w w' : World}
    (h : storeTimespec r nsec w = .ok (⟨⟩, w')) :
    ∃ p, w.rm.translateVMA (w.cpu.qword X1) = some p ∧
      w'.outcome = ⟨r.ret, w.mem.write p (leBytes 8 (r.field 0) ++ leBytes 8 nsec)⟩ := by
  simp only [storeTimespec, bind_ok_iff, getQ_run, memcpy_run, setQ_run, translateVMA_ok] at h
  obtain ⟨_, _, e₁, p, _, ⟨hp, rfl⟩, _, _, e₂, e₃⟩ := h
  cases e₁; cases e₂; cases e₃
  exact ⟨p, hp, by simp [World.outcome]⟩

/-- A step that leaves the expected outcome as it was may come first. -/
theorem HasOutcome.after {o : World → Outcome} {α : Type} {p : Svc α} {f : α → Svc PUnit}
    (hp : Framed (fun w w' => o w' = o w) p) (hf : ∀ a, HasOutcome o (f a)) :
    HasOutcome o (p >>= f) := by
  intro w b w' h
  obtain ⟨a, m, h₁, h₂⟩ := bind_ok h
  exact (hf a m b w' h₂).trans (hp w a m h₁)

/-- A step that leaves `X0` and memory as they are may come last. -/
theorem HasOutcome.before {o : World → Outcome} {p : Svc PUnit} {f : PUnit → Svc PUnit}
    (hp : HasOutcome o p) (hf : ∀ a, Framed (fun w w' => w'.outcome = w.outcome) (f a)) :
    HasOutcome o (p >>= f) := by
  intro w b w' h
  obtain ⟨a, m, h₁, h₂⟩ := bind_ok h
  exact (hf a m b w' h₂).trans (hp w a m h₁)

theorem outcome_perrorIf (b : Bool) :
    Framed (fun w w' => w'.outcome = w.outcome) (perrorIf b) := by
  intro w _ w' h
  rcases b with - | -
  · cases h
    rfl
  · cases h
    rfl

theorem outcome_sysMkdirat : HasOutcome World.replyD sysMkdirat :=
  framed_after (reads_getD _) fun _ => framed_after (reads_getQ _) fun _ =>
    framed_after (reads_translateVMA _) fun _ => framed_after (reads_getD _) fun _ =>
      hasOutcome_retD _ _

theorem outcome_sysUnlinkat : HasOutcome World.replyD sysUnlinkat :=
  framed_after (reads_getD _) fun _ => framed_after (reads_getQ _) fun _ =>
    framed_after (reads_translateVMA _) fun _ => framed_after (reads_getD _) fun _ =>
      hasOutcome_retD _ _

theorem outcome_sysOpenat : HasOutcome World.replyD sysOpenat :=
  framed_after (reads_getQ _) fun _ => framed_after (reads_translateVMA _) fun _ =>
    framed_after (reads_getD _) fun _ => framed_after (reads_getD _) fun _ =>
      framed_after (reads_getD _) fun _ =>
        (hasOutcome_retD _ _).before fun _ => framed_after (reads_getD _) fun _ =>
          outcome_perrorIf _

theorem replyD_translateFlag (linux host : BitVec 32) :
    Framed (fun w w' => w'.replyD = w.replyD) (translateFlag linux host) := by
  intro w _ w' h
  simp only [translateFlag, bind_ok_iff, getD_run] at h
  obtain ⟨_, _, e, h⟩ := h
  cases e
  split at h
  · cases h
    rfl
  · cases h
    rfl

/-- The part of the WASI `openat` after the directory descriptor. -/
theorem outcome_wasiOpenat_flags (k : WasiFcntl) :
    HasOutcome World.replyD (do
      translateFlag LINUX_O_RDONLY k.O_RDONLY
      translateFlag LINUX_O_RDWR k.O_RDWR
      translateFlag LINUX_O_WRONLY k.O_WRONLY
      translateFlag LINUX_O_CREAT k.O_CREAT
      retD .openat [arg32 (← getD X0), ← translateVMA (← getQ X1), arg32 (← getD X2),
        arg32 (← getD X3)]
      perrorIf ((← getD X0) == -1)) :=
  .after (replyD_translateFlag _ _) fun _ => .after (replyD_translateFlag _ _) fun _ =>
  .after (replyD_translateFlag _ _) fun _ => .after (replyD_translateFlag _ _) fun _ =>
  framed_after (reads_getD _) fun _ => framed_after (reads_getQ _) fun _ =>
  framed_after (reads_translateVMA _) fun _ => framed_after (reads_getD _) fun _ =>
  framed_after (reads_getD _) fun _ =>
  (hasOutcome_retD _ _).before fun _ => framed_after (reads_getD _) fun _ =>
    outcome_perrorIf _

/-! The WASI handlers that take a directory descriptor first replace `AT_FDCWD`. -/

/-- The descriptor is replaced if it stands for the working directory. -/
theorem wasiDirfd_ok {k : WasiFcntl} {w w' : World} (h : wasiDirfd k w = .ok (⟨⟩, w')) :
    w.cpu.dword X0 ≠ LINUX_AD_FDCWD ∧ w' = w ∨ w.cpu.dword X0 = LINUX_AD_FDCWD ∧
      w' = { w with cpu := w.cpu.setQword X0 (k.AT_FDCWD.signExtend 64) } := by
  simp only [wasiDirfd, bind_ok_iff, getD_run] at h
  obtain ⟨_, _, e, h⟩ := h
  cases e
  split at h
  · rename_i hfd
    cases h
    exact .inr ⟨hfd, rfl⟩
  · rename_i hfd
    cases h
    exact .inl ⟨hfd, rfl⟩

/-- What a target puts in the place of the `AT_FDCWD` of Linux. -/
def Target.replacedFd : Target → Option (BitVec 32)
  | .wasi _ k => some k.AT_FDCWD
  | _ => none

/-- The world in which a call that takes a directory descriptor goes to the host. -/
def Target.dirfd (t : Target) (w : World) : World :=
  if w.cpu.dword X0 = LINUX_AD_FDCWD then
    match t.replacedFd with
    | some fd => { w with cpu := w.cpu.setQword X0 (fd.signExtend 64) }
    | none => w
  else w

theorem Target.dirfd_eq {t : Target} (h : t.replacedFd = none) (w : World) : t.dirfd w = w := by
  unfold Target.dirfd
  rw [h, ite_self]

/-- After the replacement the reply is that of the world with the replaced descriptor. -/
theorem HasOutcome.wasiDirfd {p : Svc PUnit} (h : HasOutcome World.replyD p) (m : DataModel)
    (k : WasiFcntl) :
    HasOutcome (fun w => ((Target.wasi m k).dirfd w).replyD) (do wasiDirfd k; p) := by
  intro w a w' hr
  obtain ⟨_, w₁, h₁, h₂⟩ := bind_ok hr
  have hdirfd : (Target.wasi m k).dirfd w = w₁ := by
    rcases wasiDirfd_ok h₁ with ⟨hfd, rfl⟩ | ⟨hfd, rfl⟩
    · exact if_neg hfd
    · exact if_pos hfd
  show w'.outcome = ((Target.wasi m k).dirfd w).replyD
  rw [hdirfd]
  exact h w₁ a w' h₂

/-- The low half of `X0`, and memory. -/
def Outcome.low (o : Outcome) : BitVec 32 × HostMem := (o.x0.setWidth 32, o.mem)

/-- A replaced `AT_FDCWD` shows in the high half of `X0` only. -/
theorem low_replyD_dirfd (t : Target) (w : World) : (t.dirfd w).replyD.low = w.replyD.low := by
  have hlow : ∀ s : State, ∀ u : BitVec 32, ((s.setDword X0 u).qword X0).setWidth 32 = u :=
    fun s u => State.dword_setDword s X0 u
  unfold Target.dirfd
  split
  · rcases t.replacedFd with - | fd
    · rfl
    · simp only [Outcome.low, World.replyD, hlow]
      rfl
  · rfl

theorem outcome_wasiReadlinkat {k : WasiFcntl} {w w' : World}
    (h : wasiReadlinkat k w = .ok (⟨⟩, w')) :
    w.Copied (w.cpu.qword X2) (w.reply.bytes.take (w.cpu.dword X3).toNat) w'.outcome := by
  obtain ⟨_, m, h₁, h₂⟩ := bind_ok h
  rcases wasiDirfd_ok h₁ with ⟨-, rfl⟩ | ⟨-, rfl⟩
  · exact outcome_sysReadlinkat h₂
  · have hcopied := outcome_sysReadlinkat h₂
    exact hcopied

/-- `clock_gettime`, with `tv_nsec` as it is after the conversion to `_ecv_long`. -/
theorem outcome_clockGettime {fn : HostFn} {args : List (BitVec 64)}
    (nsec : BitVec 64 → BitVec 64) {w w' : World}
    (h : (do let r ← hostCall fn args; storeTimespec r (nsec (r.field 1)) : Svc PUnit) w =
      .ok (⟨⟩, w')) :
    w.Copied (w.cpu.qword X1) (leBytes 8 (w.reply.field 0) ++
      leBytes 8 (nsec (w.reply.field 1))) w'.outcome := by
  obtain ⟨_, _, e, h₂⟩ := bind_ok h
  cases e
  have htp := outcome_storeTimespec h₂
  exact htp

end Outcomes

/-! ### Agreement of the targets -/

/-- The data model of a host. -/
def Target.model : Target → DataModel
  | .native m => m
  | .browser m => m
  | .wasi m _ => m

/-- The system calls the three targets implement by the same operation.  The others
are stubs on some target, or WASI and the browser answer them without the host:
`set_tid_address`, `uname`, `getrandom` and the process identities. -/
def commonSyscalls : List (BitVec 64) :=
  [ AARCH64_SYS_MKDIRAT, AARCH64_SYS_UNLINKAT, AARCH64_SYS_TRUNCATE, AARCH64_SYS_FTRUNCATE,
    AARCH64_SYS_OPENAT, AARCH64_SYS_CLOSE, AARCH64_SYS_LSEEK, AARCH64_SYS_READ,
    AARCH64_SYS_WRITE, AARCH64_SYS_WRITEV, AARCH64_SYS_READLINKAT, AARCH64_SYS_FSYNC,
    AARCH64_SYS_EXIT, AARCH64_SYS_EXITGROUP, AARCH64_SYS_FUTEX, AARCH64_SYS_SET_ROBUST_LIST,
    AARCH64_SYS_CLOCK_GETTIME, AARCH64_SYS_RT_SIGPROCMASK, AARCH64_SYS_GETTIMEOFDAY,
    AARCH64_SYS_BRK, AARCH64_SYS_MUNMAP, AARCH64_SYS_MMAP, AARCH64_SYS_MPROTECT,
    AARCH64_SYS_PRLIMIT64, AARCH64_SYS_RSEQ ]

/-- The `int` calls that take a directory descriptor. -/
def dirfdSyscalls : List (BitVec 64) :=
  [ AARCH64_SYS_MKDIRAT, AARCH64_SYS_UNLINKAT, AARCH64_SYS_OPENAT ]

/-- What the host gives fits the types of the call: `read` no more than the count that it is
called with, and `clock_gettime` nanoseconds of a `long`. -/
structure Fits (m : DataModel) (w : World) : Prop where
  count : w.cpu.qword SYSNUMREG = AARCH64_SYS_READ →
    w.reply.bytes.take (m.cast (w.cpu.qword X2)).toNat =
      w.reply.bytes.take (w.cpu.qword X2).toNat
  nsec : w.cpu.qword SYSNUMREG = AARCH64_SYS_CLOCK_GETTIME →
    m.cast (w.reply.field 1) = w.reply.field 1

section Agreement

variable {t t₁ t₂ : Target} {w w' w₁ w₂ : World}

/-- The calls with a directory have one outcome, but for the replaced descriptor. -/
theorem handler_dirfd {n : BitVec 64} (hn : n ∈ dirfdSyscalls) :
    HasOutcome (fun w => (t.dirfd w).replyD) (handler t n) := by
  have hself {p : Svc PUnit} (h : HasOutcome World.replyD p) (ht : t.replacedFd = none) :
      HasOutcome (fun w => (t.dirfd w).replyD) p := by
    intro w a w' hr
    show w'.outcome = (t.dirfd w).replyD
    rw [Target.dirfd_eq ht, h w a w' hr]
  simp only [dirfdSyscalls, List.mem_cons, List.not_mem_nil, or_false] at hn
  rcases hn with rfl | rfl | rfl
  · rcases t with m | m | ⟨m, k⟩
    · exact hself outcome_sysMkdirat rfl
    · exact hself outcome_sysMkdirat rfl
    · exact outcome_sysMkdirat.wasiDirfd m k
  · rcases t with m | m | ⟨m, k⟩
    · exact hself outcome_sysUnlinkat rfl
    · exact hself outcome_sysUnlinkat rfl
    · exact outcome_sysUnlinkat.wasiDirfd m k
  · rcases t with m | m | ⟨m, k⟩
    · exact hself outcome_sysOpenat rfl
    · exact hself outcome_sysOpenat rfl
    · exact (outcome_wasiOpenat_flags k).wasiDirfd m k

/-- The calls whose handler is literally the same on all targets. -/
def sharedSyscalls : List (BitVec 64) :=
  [ AARCH64_SYS_CLOSE, AARCH64_SYS_FSYNC, AARCH64_SYS_EXIT, AARCH64_SYS_FUTEX,
    AARCH64_SYS_SET_ROBUST_LIST, AARCH64_SYS_RT_SIGPROCMASK, AARCH64_SYS_GETTIMEOFDAY,
    AARCH64_SYS_BRK, AARCH64_SYS_MUNMAP, AARCH64_SYS_MMAP, AARCH64_SYS_MPROTECT,
    AARCH64_SYS_PRLIMIT64, AARCH64_SYS_RSEQ ]

/-- The calls whose bodies are the same on every host. -/
theorem handler_shared {n : BitVec 64} (hn : n ∈ sharedSyscalls) :
    ∃ p, ∀ t, handler t n = p := by
  simp only [sharedSyscalls, List.mem_cons, List.not_mem_nil, or_false] at hn
  rcases hn with rfl | rfl | rfl | rfl | rfl | rfl | rfl | rfl | rfl | rfl | rfl | rfl | rfl
  · exact ⟨sysClose, fun t => by cases t <;> rfl⟩
  · exact ⟨sysFsync, fun t => by cases t <;> rfl⟩
  · exact ⟨sysExit, fun t => by cases t <;> rfl⟩
  · exact ⟨sysFutex, fun t => by cases t <;> rfl⟩
  · exact ⟨sysSetRobustList, fun t => by cases t <;> rfl⟩
  · exact ⟨sysRtSigprocmask, fun t => by cases t <;> rfl⟩
  · exact ⟨sysGettimeofday, fun t => by cases t <;> rfl⟩
  · exact ⟨sysBrk, fun t => by cases t <;> rfl⟩
  · exact ⟨sysMunmap, fun t => by cases t <;> rfl⟩
  · exact ⟨sysMmap, fun t => by cases t <;> rfl⟩
  · exact ⟨sysMprotect, fun t => by cases t <;> rfl⟩
  · exact ⟨sysPrlimit64, fun t => by cases t <;> rfl⟩
  · exact ⟨sysRseq, fun t => by cases t <;> rfl⟩

/-- The calls that differ only in how an argument is cast, with a word for a result. -/
theorem handler_replyD {n : BitVec 64}
    (hn : n ∈ [AARCH64_SYS_TRUNCATE, AARCH64_SYS_FTRUNCATE, AARCH64_SYS_LSEEK]) :
    HasOutcome World.replyD (handler t n) := by
  simp only [List.mem_cons, List.not_mem_nil, or_false] at hn
  rcases hn with rfl | rfl | rfl
  · rcases t <;> exact outcome_sysTruncate _
  · rcases t <;> exact outcome_sysFtruncate _
  · rcases t <;> exact outcome_sysLseek _

/-- The calls that differ only in how an argument is cast, with a whole reply. -/
theorem handler_replyQ {n : BitVec 64} (hn : n ∈ [AARCH64_SYS_WRITE, AARCH64_SYS_WRITEV]) :
    HasOutcome World.replyQ (handler t n) := by
  simp only [List.mem_cons, List.not_mem_nil, or_false] at hn
  rcases hn with rfl | rfl
  · rcases t <;> exact outcome_sysWrite _
  · rcases t <;> exact outcome_sysWritev _

/-- `read` on every host, where the count fits. -/
theorem handler_read (hn : w.cpu.qword SYSNUMREG = AARCH64_SYS_READ) (hf : Fits t.model w)
    (h : handler t AARCH64_SYS_READ w = .ok (⟨⟩, w')) :
    w.Copied (w.cpu.qword X1) (w.reply.bytes.take (w.cpu.qword X2).toNat) w'.outcome := by
  have hcopied : w.Copied (w.cpu.qword X1)
      (w.reply.bytes.take (t.model.cast (w.cpu.qword X2)).toNat) w'.outcome := by
    rcases t <;> exact outcome_sysRead _ h
  rwa [hf.count hn] at hcopied

theorem handler_readlinkat (h : handler t AARCH64_SYS_READLINKAT w = .ok (⟨⟩, w')) :
    w.Copied (w.cpu.qword X2) (w.reply.bytes.take (w.cpu.dword X3).toNat) w'.outcome := by
  rcases t with m | m | ⟨m, k⟩
  · exact outcome_sysReadlinkat h
  · exact outcome_sysReadlinkat h
  · exact outcome_wasiReadlinkat h

/-- `clock_gettime` on every host, where the nanoseconds fit. -/
theorem handler_clockGettime (hn : w.cpu.qword SYSNUMREG = AARCH64_SYS_CLOCK_GETTIME)
    (hf : Fits t.model w) (h : handler t AARCH64_SYS_CLOCK_GETTIME w = .ok (⟨⟩, w')) :
    w.Copied (w.cpu.qword X1) (leBytes 8 (w.reply.field 0) ++ leBytes 8 (w.reply.field 1))
      w'.outcome := by
  rcases t with m | m | ⟨m, k⟩
  · exact outcome_clockGettime id h
  · have hcopied := outcome_clockGettime m.cast h
    rwa [show m.cast (w.reply.field 1) = _ from hf.nsec hn] at hcopied
  · have hcopied := outcome_clockGettime m.cast h
    rwa [show m.cast (w.reply.field 1) = _ from hf.nsec hn] at hcopied

/-- `exit_group` comes back nowhere but on the native host. -/
theorem handler_exitGroup (h₁ : handler t₁ AARCH64_SYS_EXITGROUP w = .ok (⟨⟩, w₁))
    (h₂ : handler t₂ AARCH64_SYS_EXITGROUP w = .ok (⟨⟩, w₂)) : w₁ = w₂ := by
  have hexit : ∀ w', sysExit w ≠ .ok (⟨⟩, w') := by
    rintro w' h
    obtain ⟨_, _, -, h⟩ := bind_ok h
    cases h
  have hnative : ∀ {m w'}, handler (.native m) AARCH64_SYS_EXITGROUP w = .ok (⟨⟩, w') →
      nativeExitGroup w = .ok (⟨⟩, w') := fun h => h
  rcases t₁ with m₁ | m₁ | ⟨m₁, k₁⟩
  · rcases t₂ with m₂ | m₂ | ⟨m₂, k₂⟩
    · cases (hnative h₁).symm.trans (hnative h₂)
      rfl
    · exact absurd h₂ (hexit _)
    · exact absurd h₂ (hexit _)
  · exact absurd h₁ (hexit _)
  · exact absurd h₁ (hexit _)

/-- The common system calls, by what is shared of their bodies. -/
theorem commonSyscalls_cases : ∀ n ∈ commonSyscalls,
    n ∈ dirfdSyscalls ∨ n ∈ sharedSyscalls ∨
    n ∈ [AARCH64_SYS_TRUNCATE, AARCH64_SYS_FTRUNCATE, AARCH64_SYS_LSEEK] ∨
    n ∈ [AARCH64_SYS_WRITE, AARCH64_SYS_WRITEV] ∨ n = AARCH64_SYS_READ ∨
    n = AARCH64_SYS_READLINKAT ∨ n = AARCH64_SYS_CLOCK_GETTIME ∨
    n = AARCH64_SYS_EXITGROUP := by
  simp only [commonSyscalls, List.forall_mem_cons]
  refine ⟨?_, ?_, ?_, ?_, ?_, ?_, ?_, ?_, ?_, ?_, ?_, ?_, ?_, ?_, ?_, ?_, ?_, ?_, ?_, ?_, ?_, ?_,
    ?_, ?_, ?_, by simp⟩ <;> decide

theorem agree_of_eq {o₁ o₂ : Outcome} {c : Prop} (h : o₁ = o₂) :
    o₁.low = o₂.low ∧ (c → o₁ = o₂) :=
  ⟨by rw [h], fun _ => h⟩

/-- Two targets that return from the same common call leave the same memory and the same
low half of `X0`, and the same `X0` unless one has put something else in the place of an
`AT_FDCWD`. -/
theorem handler_agree (hn : w.cpu.qword SYSNUMREG ∈ commonSyscalls) (hf₁ : Fits t₁.model w)
    (hf₂ : Fits t₂.model w) (h₁ : handler t₁ (w.cpu.qword SYSNUMREG) w = .ok (⟨⟩, w₁))
    (h₂ : handler t₂ (w.cpu.qword SYSNUMREG) w = .ok (⟨⟩, w₂)) :
    w₁.outcome.low = w₂.outcome.low ∧
      ((w.cpu.qword SYSNUMREG ∈ dirfdSyscalls → w.cpu.dword X0 = LINUX_AD_FDCWD →
        t₁.replacedFd = t₂.replacedFd) → w₁.outcome = w₂.outcome) := by
  -- the common calls by what their answers depend on
  rcases commonSyscalls_cases _ hn with hd | hs | hD | hQ | hread | hlink | hclock | hexit
  · have e₁ := handler_dirfd hd w ⟨⟩ w₁ h₁
    have e₂ := handler_dirfd hd w ⟨⟩ w₂ h₂
    refine ⟨?_, fun hfd => ?_⟩
    · rw [e₁, e₂, low_replyD_dirfd, low_replyD_dirfd]
    · have hw : t₁.dirfd w = t₂.dirfd w := by
        unfold Target.dirfd
        by_cases hX0 : w.cpu.dword X0 = LINUX_AD_FDCWD
        · rw [hfd hd hX0]
        · rw [if_neg hX0, if_neg hX0]
      exact e₁.trans ((congrArg World.replyD hw).trans e₂.symm)
  · obtain ⟨p, hp⟩ := handler_shared hs
    rw [hp] at h₁ h₂
    cases h₁.symm.trans h₂
    exact ⟨rfl, fun _ => rfl⟩
  · exact agree_of_eq
      ((handler_replyD hD w ⟨⟩ w₁ h₁).trans (handler_replyD hD w ⟨⟩ w₂ h₂).symm)
  · exact agree_of_eq
      ((handler_replyQ hQ w ⟨⟩ w₁ h₁).trans (handler_replyQ hQ w ⟨⟩ w₂ h₂).symm)
  · rw [hread] at h₁ h₂
    exact agree_of_eq ((handler_read hread hf₁ h₁).unique (handler_read hread hf₂ h₂))
  · rw [hlink] at h₁ h₂
    exact agree_of_eq ((handler_readlinkat h₁).unique (handler_readlinkat h₂))
  · rw [hclock] at h₁ h₂
    exact agree_of_eq
      ((handler_clockGettime hclock hf₁ h₁).unique (handler_clockGettime hclock hf₂ h₂))
  · rw [hexit] at h₁ h₂
    exact agree_of_eq (by rw [handler_exitGroup h₁ h₂])

/-- The labels that any of the switches falls through from. -/
theorem fallThrough_subset (t : Target) :
    t.fallThrough ⊆ [AARCH64_SYS_DUP, AARCH64_SYS_IOCTL, AARCH64_SYS_GETRUSAGE,
      AARCH64_SYS_WAIT4] := by
  rcases t with m | m | ⟨m, k⟩ <;>
    simp [Target.fallThrough, Target.arms, fallLabels, nativeArms, browserArms, wasiArms]

theorem commonSyscalls_not_fallThrough {n : BitVec 64} (hn : n ∈ commonSyscalls) :
    n ∉ t.fallThrough := by
  intro h
  have hfall := fallThrough_subset t h
  simp only [List.mem_cons, List.not_mem_nil, or_false] at hfall
  rcases hfall with rfl | rfl | rfl | rfl <;> exact absurd hn (by decide)

end Agreement

/-- **Each system call does its own work.**  Away from the arms without `break`, a call
clears `errno` and runs the handler of its own number; what it changes lies in the
footprint of that number.  Where the targets implement a call by the same operation, the
same replies of the host lead to the same `X0` and the same guest memory. -/
theorem svcCall_own_work :
    (∀ t w, w.cpu.qword SYSNUMREG ∉ t.fallThrough →
      svcCall t w = handler t (w.cpu.qword SYSNUMREG) { w with errno := 0 } ∧
      ∀ w', svcCall t w = .ok (⟨⟩, w') → Keeps (footprint t (w.cpu.qword SYSNUMREG)) w w') ∧
    (∀ t₁ t₂ w w₁ w₂, w.cpu.qword SYSNUMREG ∈ commonSyscalls →
      Fits t₁.model w → Fits t₂.model w →
      svcCall t₁ w = .ok (⟨⟩, w₁) → svcCall t₂ w = .ok (⟨⟩, w₂) →
      w₁.outcome.low = w₂.outcome.low ∧
        ((w.cpu.qword SYSNUMREG ∈ dirfdSyscalls → w.cpu.dword X0 = LINUX_AD_FDCWD →
          t₁.replacedFd = t₂.replacedFd) → w₁.outcome = w₂.outcome)) := by
  refine ⟨fun t w h => ⟨svcCall_eq_handler h, fun w' hr => keeps_svcCall h hr⟩, ?_⟩
  intro t₁ t₂ w w₁ w₂ hn hf₁ hf₂ h₁ h₂
  rw [svcCall_eq_handler (commonSyscalls_not_fallThrough hn)] at h₁ h₂
  exact handler_agree (w := { w with errno := 0 }) hn ⟨hf₁.count, hf₁.nsec⟩
    ⟨hf₂.count, hf₂.nsec⟩ h₁ h₂

/-! ### Runs on a fixed world -/

/-- Registers `gpr`, a heap from address 0 upward, and a host that always returns `ret`. -/
def World.sample (gpr : Gpr → BitVec 64) (ret : BitVec 64) : World where
  cpu := ⟨gpr, fun _ => 0, 0⟩
  rm := ⟨[], ⟨-1, 0, 0, 0, 0⟩, ⟨0, HEAP_UNIT_SIZE, HEAP_UNIT_SIZE, 0, 0⟩⟩
  mem := fun _ => 0
  errno := 0
  host := fun _ => ⟨ret, none, [], fun _ => 0⟩
  calls := []

/-- `x8 = n`, `x0`, `x2`, the other registers zero. -/
def callRegs (n x0 x2 : BitVec 64) : Gpr → BitVec 64
  | .x 8 => n
  | .x 0 => x0
  | .x 2 => x2
  | _ => 0

/-- The constants of `wasi-libc`. -/
def WasiFcntl.sample : WasiFcntl := ⟨-2, 0x4000000, 0x10000000, 0x14000000, 0x1000⟩

/-- What `f` sees of the world in which the call returns. -/
def after {α : Type} (t : Target) (w : World) (f : World → α) : Option α :=
  (svcCall t w).toOption.map fun p => f p.2

/-- `close` returns 5 on both, with a pointer in `x2`. -/
theorem svcCall_own_work_close :
    after (.native ⟨64⟩) (.sample (callRegs 57 3 0x400000000010) 5) World.outcome =
      after (.wasi ⟨32⟩ .sample) (.sample (callRegs 57 3 0x400000000010) 5) World.outcome :=
  congrArg some ((svcCall_own_work.2 (.native ⟨64⟩) (.wasi ⟨32⟩ .sample)
    (.sample (callRegs 57 3 0x400000000010) 5) _ _ (by decide)
    ⟨fun h => absurd h (by decide), fun h => absurd h (by decide)⟩
    ⟨fun h => absurd h (by decide), fun h => absurd h (by decide)⟩
    rfl rfl).2 fun h => absurd h (by decide))

/-- The unrestricted statement fails four times over: `getpid` is the host's on the native
target and 42 on WASI; the native `dup` goes on into `mkdirat`; the WASI `openat` leaves
its translated flags in `x2`; and the WASI `mkdirat` leaves the high half of the replaced
`AT_FDCWD` in `x0`. -/
theorem svcCall_not_own_work :
    (after (.native ⟨64⟩) (.sample (callRegs 172 0 0) 7) (·.cpu.qword X0) = some 7 ∧
      after (.wasi ⟨32⟩ .sample) (.sample (callRegs 172 0 0) 7) (·.cpu.qword X0) = some 42) ∧
    after (.native ⟨64⟩) (.sample (callRegs 23 3 0) 7) (fun w => w.calls.map HostCall.fn) =
      some [.dup, .mkdirat] ∧
    after (.wasi ⟨32⟩ .sample) (.sample (callRegs 56 3 64) 7) (·.cpu.qword X2) =
      some 0x4001000 ∧
    (after (.native ⟨64⟩) (.sample (callRegs 34 0xffffff9c 0) 0) (·.cpu.qword X0) = some 0 ∧
      after (.wasi ⟨32⟩ .sample) (.sample (callRegs 34 0xffffff9c 0) 0) (·.cpu.qword X0) =
        some 0xffffffff00000000) := by
  refine ⟨⟨?_, ?_⟩, ?_, ?_, ?_, ?_⟩ <;> decide

end Elfconv
