/-
Elfconv/Runtime/Effects.lean

What each system call may touch.

`footprint t n` lists, for system call `n` on target `t`, the guest registers its
handler may write, the host functions it may call, and whether it may write guest
memory or move the heap cursor.  `keeps_handler` proves every handler inside its
footprint, from one lemma for each body of `Elfconv/Runtime/Handlers.lean`.
-/
import Elfconv.Runtime.Switches

namespace Elfconv

open Frame Svc Switch

/-! ### Footprints -/

/-- Only `X0` changes. -/
def Svc.Footprint.result (fns : List HostFn) : Footprint := ⟨[X0], fns, false, false⟩

/-- `X0` and guest memory change. -/
def Svc.Footprint.memory (fns : List HostFn) : Footprint := ⟨[X0], fns, true, false⟩

/-- The footprints that depend on the system call alone. -/
def footprints : List (BitVec 64 × Footprint) :=
  [ (AARCH64_SYS_DUP, .result [.dup]),
    (AARCH64_SYS_IOCTL, .memory [.tcgetattr]),
    (AARCH64_SYS_MKDIRAT, .result [.mkdirat]),
    (AARCH64_SYS_UNLINKAT, .result [.unlinkat]),
    (AARCH64_SYS_STATFS, .memory [.statfs]),
    (AARCH64_SYS_TRUNCATE, .result [.truncate]),
    (AARCH64_SYS_FTRUNCATE, .result [.ftruncate]),
    (AARCH64_SYS_OPENAT, .result [.openat, .perror]),
    (AARCH64_SYS_CLOSE, .result [.close]),
    (AARCH64_SYS_LSEEK, .result [.lseek]),
    (AARCH64_SYS_READ, .memory [.read]),
    (AARCH64_SYS_WRITE, .result [.write]),
    (AARCH64_SYS_WRITEV, .result [.writev]),
    (AARCH64_SYS_READLINKAT, .memory [.readlinkat]),
    (AARCH64_SYS_FSYNC, .result [.fsync]),
    (AARCH64_SYS_EXITGROUP, .result [.syscall]),
    (AARCH64_SYS_SET_TID_ADDRESS, .memory [.gettid]),
    (AARCH64_SYS_CLOCK_GETTIME, .memory [.clock_gettime]),
    (AARCH64_SYS_TGKILL, .result [.tgkill, .kill]),
    (AARCH64_SYS_RT_SIGACTION, .memory [.sigaction]),
    (AARCH64_SYS_UNAME, .memory [.uname]),
    (AARCH64_SYS_GETTIMEOFDAY, .memory [.gettimeofday]),
    (AARCH64_SYS_GETRUSAGE, .memory [.getrusage]),
    (AARCH64_SYS_GETPID, .result [.getpid]),
    (AARCH64_SYS_GETPPID, .result [.getppid]),
    (AARCH64_SYS_GETTUID, .result [.getuid]),
    (AARCH64_SYS_GETEUID, .result [.geteuid]),
    (AARCH64_SYS_GETGID, .result [.getgid]),
    (AARCH64_SYS_GETEGID, .result [.getegid]),
    (AARCH64_SYS_GETTID, .result [.gettid]),
    (AARCH64_SYS_BRK, ⟨[X0], [], false, true⟩),
    (AARCH64_SYS_MMAP, ⟨[X0], [], false, true⟩),
    (AARCH64_SYS_WAIT4, .memory [.wait4]),
    (AARCH64_SYS_GETRANDOM, .memory [.getentropy]),
    (AARCH64_SYS_STATX, .memory [.fstat]) ]

/-- The footprint of system call `n`.  The WASI `openat` translates the open flags in
place, in `X2`; every other handler writes `X0` at most. -/
def footprint (t : Target) (n : BitVec 64) : Footprint :=
  let fp := (footprints.lookup n).getD (.result [])
  match t with
  | .wasi _ _ => if n = AARCH64_SYS_OPENAT then { fp with regs := [X0, X2] } else fp
  | _ => fp

/-! ### The handlers -/

section Handlers

variable {fp : Footprint}

/-- A host function whose `int` is returned in `W0`. -/
theorem keeps_retD (hr : X0 ∈ fp.regs) {fn : HostFn} (hf : fn ∈ fp.fns)
    (args : List (BitVec 64)) : Framed (Keeps fp) (retD fn args) :=
  framed_bind (keeps_hostCall hf _) fun _ => keeps_setD hr _

/-- A host function whose result is returned in `X0`. -/
theorem keeps_retQ (hr : X0 ∈ fp.regs) {fn : HostFn} (hf : fn ∈ fp.fns)
    (args : List (BitVec 64)) : Framed (Keeps fp) (retQ fn args) :=
  framed_bind (keeps_hostCall hf _) fun _ => keeps_setQ hr _

/-- `EMPTY_SYSCALL` answers `-1` and sets `errno`. -/
theorem keeps_emptySyscall (hr : X0 ∈ fp.regs) : Framed (Keeps fp) emptySyscall :=
  framed_bind (keeps_setQ hr _) fun _ => keeps_setErrno _

theorem keeps_sysDup : Framed (Keeps (.result [.dup])) sysDup :=
  framed_bind (keeps_getD _) fun _ => keeps_retD (by decide) (by decide) _

/-- Guest memory is written for `TCGETS` only, and only when the host answers. -/
theorem keeps_sysIoctl (m : DataModel) : Framed (Keeps (.memory [.tcgetattr])) (sysIoctl m) := by
  refine framed_bind (keeps_getD _) fun fd => framed_bind (keeps_getD _) fun cmd =>
    framed_bind (keeps_getQ _) fun arg => framed_ite ?_ (framed_pure _)
  refine framed_bind (keeps_hostCall (by decide) _) fun r => framed_ite ?_ ?_
  · exact framed_bind (keeps_translateVMA _) fun p =>
      framed_bind (keeps_memcpy rfl _ _) fun _ => keeps_setQ (by decide) _
  · exact keeps_setQ (by decide) _

/-- `f(X0_D, TranslateVMA(X1_Q), X2_D)`: the shape of `mkdirat` and `unlinkat`. -/
theorem keeps_pathCall (hr : X0 ∈ fp.regs) {fn : HostFn} (hf : fn ∈ fp.fns) :
    Framed (Keeps fp) (do
      retD fn [arg32 (← getD X0), ← translateVMA (← getQ X1), arg32 (← getD X2)]) :=
  framed_bind (keeps_getD _) fun _ => framed_bind (keeps_getQ _) fun _ =>
    framed_bind (keeps_translateVMA _) fun _ => framed_bind (keeps_getD _) fun _ =>
      keeps_retD hr hf _

theorem keeps_sysMkdirat : Framed (Keeps (.result [.mkdirat])) sysMkdirat :=
  keeps_pathCall (by decide) (by decide)

theorem keeps_sysUnlinkat : Framed (Keeps (.result [.unlinkat])) sysUnlinkat :=
  keeps_pathCall (by decide) (by decide)

/-- WASI puts its own descriptor in the place of `AT_FDCWD`. -/
theorem keeps_wasiDirfd (hr : X0 ∈ fp.regs) (k : WasiFcntl) :
    Framed (Keeps fp) (wasiDirfd k) :=
  framed_bind (keeps_getD _) fun _ => framed_ite (keeps_setQ hr _) (framed_pure _)

/-- `mkdirat` behind the replaced descriptor. -/
theorem keeps_wasiMkdirat (k : WasiFcntl) :
    Framed (Keeps (.result [.mkdirat])) (wasiMkdirat k) :=
  framed_bind (keeps_wasiDirfd (by decide) k) fun _ => keeps_sysMkdirat

/-- `unlinkat` behind the replaced descriptor. -/
theorem keeps_wasiUnlinkat (k : WasiFcntl) :
    Framed (Keeps (.result [.unlinkat])) (wasiUnlinkat k) :=
  framed_bind (keeps_wasiDirfd (by decide) k) fun _ => keeps_sysUnlinkat

/-- The answer of the host is copied to the guest. -/
theorem keeps_sysStatfs : Framed (Keeps (.memory [.statfs])) sysStatfs :=
  framed_bind (keeps_getQ _) fun _ => framed_bind (keeps_translateVMA _) fun _ =>
    framed_bind (keeps_getQ _) fun _ => framed_bind (keeps_translateVMA _) fun _ =>
      framed_bind (keeps_hostCall (by decide) _) fun _ =>
        framed_bind (keeps_memcpy rfl _ _) fun _ => keeps_setD (by decide) _

/-- Nothing but the result comes back from `truncate`. -/
theorem keeps_sysTruncate (m : DataModel) :
    Framed (Keeps (.result [.truncate])) (sysTruncate m) :=
  framed_bind (keeps_getQ _) fun _ => framed_bind (keeps_translateVMA _) fun _ =>
    framed_bind (keeps_getQ _) fun _ => keeps_retD (by decide) (by decide) _

/-- Nothing but the result comes back from `ftruncate`. -/
theorem keeps_sysFtruncate (m : DataModel) :
    Framed (Keeps (.result [.ftruncate])) (sysFtruncate m) :=
  framed_bind (keeps_getQ _) fun _ => framed_bind (keeps_getQ _) fun _ =>
    keeps_retD (by decide) (by decide) _

/-- The message of a failed `openat` leaves the guest alone. -/
theorem keeps_perrorIf (hf : .perror ∈ fp.fns) (b : Bool) :
    Framed (Keeps fp) (perrorIf b) :=
  framed_ite (framed_bind (keeps_hostCall hf _) fun _ => framed_pure _) (framed_pure _)

/-- `openat` may print an error, and returns its result in `W0`. -/
theorem keeps_sysOpenat : Framed (Keeps (.result [.openat, .perror])) sysOpenat :=
  framed_bind (keeps_getQ _) fun _ => framed_bind (keeps_translateVMA _) fun _ =>
    framed_bind (keeps_getD _) fun _ => framed_bind (keeps_getD _) fun _ =>
      framed_bind (keeps_getD _) fun _ =>
        framed_bind (keeps_retD (by decide) (by decide) _) fun _ =>
          framed_bind (keeps_getD _) fun _ => keeps_perrorIf (by decide) _

/-- One bit of the open flags is translated, in `X2`. -/
theorem keeps_translateFlag (hr : X2 ∈ fp.regs) (linux host : BitVec 32) :
    Framed (Keeps fp) (translateFlag linux host) :=
  framed_bind (keeps_getD _) fun _ => framed_ite (keeps_setD hr _) (framed_pure _)

/-- The WASI `openat` leaves the translated flags in `X2`. -/
theorem keeps_wasiOpenat (k : WasiFcntl) :
    Framed (Keeps ⟨[X0, X2], [.openat, .perror], false, false⟩) (wasiOpenat k) := by
  refine framed_bind (keeps_wasiDirfd (by decide) k) fun _ => ?_
  refine framed_bind (keeps_translateFlag (by decide) _ _) fun _ =>
    framed_bind (keeps_translateFlag (by decide) _ _) fun _ =>
    framed_bind (keeps_translateFlag (by decide) _ _) fun _ =>
    framed_bind (keeps_translateFlag (by decide) _ _) fun _ => ?_
  exact framed_bind (keeps_getD _) fun _ => framed_bind (keeps_getQ _) fun _ =>
    framed_bind (keeps_translateVMA _) fun _ => framed_bind (keeps_getD _) fun _ =>
    framed_bind (keeps_getD _) fun _ =>
    framed_bind (keeps_retD (by decide) (by decide) _) fun _ =>
    framed_bind (keeps_getD _) fun _ => keeps_perrorIf (by decide) _

theorem keeps_sysClose : Framed (Keeps (.result [.close])) sysClose :=
  framed_bind (keeps_getD _) fun _ => keeps_retD (by decide) (by decide) _

/-- Nothing but the result comes back from `lseek`. -/
theorem keeps_sysLseek (m : DataModel) : Framed (Keeps (.result [.lseek])) (sysLseek m) :=
  framed_bind (keeps_getD _) fun _ => framed_bind (keeps_getQ _) fun _ =>
    framed_bind (keeps_getD _) fun _ => keeps_retD (by decide) (by decide) _

/-- What is read is copied to the guest. -/
theorem keeps_sysRead (m : DataModel) : Framed (Keeps (.memory [.read])) (sysRead m) :=
  framed_bind (keeps_getQ _) fun _ => framed_bind (keeps_translateVMA _) fun _ =>
    framed_bind (keeps_getQ _) fun _ => framed_bind (keeps_getD _) fun _ =>
      framed_bind (keeps_hostCall (by decide) _) fun _ =>
        framed_bind (keeps_memcpy rfl _ _) fun _ => keeps_setQ (by decide) _

/-- `write` reads guest memory, and leaves it as it is. -/
theorem keeps_sysWrite (m : DataModel) : Framed (Keeps (.result [.write])) (sysWrite m) :=
  framed_bind (keeps_getD _) fun _ => framed_bind (keeps_getQ _) fun _ =>
    framed_bind (keeps_translateVMA _) fun _ => framed_bind (keeps_getQ _) fun _ =>
      keeps_retQ (by decide) (by decide) _

/-- The vectors of `writev` are read one after another, by induction on their number. -/
theorem keeps_translateIovecs (m : DataModel) : ∀ (n : Nat) (vec : HostPtr),
    Framed (Keeps fp) (translateIovecs m vec n)
  | 0, _ => framed_pure _
  | n + 1, _ =>
      framed_bind (keeps_load _ _) fun _ => framed_bind (keeps_translateVMA _) fun _ =>
        framed_bind (keeps_load _ _) fun _ =>
          framed_bind (keeps_translateIovecs m n _) fun _ => framed_pure _

/-- `writev` translates its vectors in memory of its own. -/
theorem keeps_sysWritev (m : DataModel) : Framed (Keeps (.result [.writev])) (sysWritev m) :=
  framed_bind (keeps_getQ _) fun _ => framed_bind (keeps_getQ _) fun _ =>
    framed_bind (keeps_getQ _) fun _ => framed_bind (keeps_translateVMA _) fun _ =>
      framed_bind (keeps_translateIovecs m _ _) fun _ => keeps_retQ (by decide) (by decide) _

/-- The target of the link is copied to the guest. -/
theorem keeps_sysReadlinkat : Framed (Keeps (.memory [.readlinkat])) sysReadlinkat :=
  framed_bind (keeps_getQ _) fun _ => framed_bind (keeps_translateVMA _) fun _ =>
    framed_bind (keeps_getQ _) fun _ => framed_bind (keeps_translateVMA _) fun _ =>
      framed_bind (keeps_getD _) fun _ => framed_bind (keeps_getD _) fun _ =>
        framed_bind (keeps_hostCall (by decide) _) fun _ =>
          framed_bind (keeps_memcpy rfl _ _) fun _ => keeps_setQ (by decide) _

/-- `readlinkat` behind the replaced descriptor. -/
theorem keeps_wasiReadlinkat (k : WasiFcntl) :
    Framed (Keeps (.memory [.readlinkat])) (wasiReadlinkat k) :=
  framed_bind (keeps_wasiDirfd (by decide) k) fun _ => keeps_sysReadlinkat

theorem keeps_sysFsync : Framed (Keeps (.result [.fsync])) sysFsync :=
  framed_bind (keeps_getD _) fun _ => keeps_retD (by decide) (by decide) _

/-- `exit` does not come back. -/
theorem keeps_sysExit : Framed (Keeps fp) sysExit :=
  framed_bind (keeps_getD _) fun _ => keeps_exit _

/-- The native `exit_group` is the system call of the host. -/
theorem keeps_nativeExitGroup : Framed (Keeps (.result [.syscall])) nativeExitGroup :=
  framed_bind (keeps_getD _) fun _ =>
    framed_bind (keeps_hostCall (by decide) _) fun _ => framed_pure _

/-- The thread identity is stored where `X0` points, and returned. -/
theorem keeps_storeTid (hr : X0 ∈ fp.regs) (hm : fp.mem = true) (tid : BitVec 64) :
    Framed (Keeps fp) (storeTid tid) :=
  framed_bind (keeps_getQ _) fun _ => framed_bind (keeps_translateVMA _) fun _ =>
    framed_bind (keeps_memcpy hm _ _) fun _ => keeps_setQ hr _

/-- The identity is that of the host's thread. -/
theorem keeps_sysSetTidAddress : Framed (Keeps (.memory [.gettid])) sysSetTidAddress :=
  framed_bind (keeps_hostCall (by decide) _) fun _ => keeps_storeTid (by decide) rfl _

/-- `futex` answers a wait by zero and knows nothing else. -/
theorem keeps_sysFutex (hr : X0 ∈ fp.regs) : Framed (Keeps fp) sysFutex :=
  framed_bind (keeps_getD _) fun _ => framed_ite (keeps_setQ hr _) (keeps_error _)

/-- The list is not kept. -/
theorem keeps_sysSetRobustList (hr : X0 ∈ fp.regs) : Framed (Keeps fp) sysSetRobustList :=
  framed_bind (keeps_setQ hr _) fun _ => keeps_setErrno _

/-- The time is copied to the guest. -/
theorem keeps_storeTimespec (hr : X0 ∈ fp.regs) (hm : fp.mem = true) (r : HostReply)
    (nsec : BitVec 64) : Framed (Keeps fp) (storeTimespec r nsec) :=
  framed_bind (keeps_getQ _) fun _ => framed_bind (keeps_translateVMA _) fun _ =>
    framed_bind (keeps_memcpy hm _ _) fun _ => keeps_setQ hr _

/-- The clock of the guest is a clock of the host. -/
theorem keeps_nativeClockGettime :
    Framed (Keeps (.memory [.clock_gettime])) nativeClockGettime :=
  framed_bind (keeps_getD _) fun _ => framed_bind (keeps_hostCall (by decide) _) fun _ =>
    keeps_storeTimespec (by decide) rfl _ _

/-- The browser asks for the clock 0, whichever the guest names. -/
theorem keeps_browserClockGettime (m : DataModel) :
    Framed (Keeps (.memory [.clock_gettime])) (browserClockGettime m) :=
  framed_bind (keeps_hostCall (by decide) _) fun _ => keeps_storeTimespec (by decide) rfl _ _

/-- WASI hands on the number of the clock. -/
theorem keeps_wasiClockGettime (m : DataModel) :
    Framed (Keeps (.memory [.clock_gettime])) (wasiClockGettime m) :=
  framed_bind (keeps_getD _) fun _ => framed_bind (keeps_hostCall (by decide) _) fun _ =>
    keeps_storeTimespec (by decide) rfl _ _

/-- `tgkill` of the host. -/
theorem keeps_nativeTgkill : Framed (Keeps (.result [.tgkill, .kill])) nativeTgkill :=
  framed_bind (keeps_getD _) fun _ => framed_bind (keeps_getD _) fun _ =>
    framed_bind (keeps_getD _) fun _ => keeps_retQ (by decide) (by decide) _

/-- The browser has `kill` only. -/
theorem keeps_browserTgkill : Framed (Keeps (.result [.tgkill, .kill])) browserTgkill :=
  framed_bind (keeps_getD _) fun _ => framed_bind (keeps_getD _) fun _ =>
    keeps_retQ (by decide) (by decide) _

/-- The old action is copied to the guest. -/
theorem keeps_sysRtSigaction : Framed (Keeps (.memory [.sigaction])) sysRtSigaction :=
  framed_bind (keeps_getQ _) fun _ => framed_bind (keeps_translateVMA _) fun _ =>
    framed_bind (keeps_getQ _) fun _ => framed_bind (keeps_translateVMA _) fun _ =>
      framed_bind (keeps_getD _) fun _ => framed_bind (keeps_hostCall (by decide) _) fun _ =>
        framed_bind (keeps_memcpy rfl _ _) fun _ => keeps_setD (by decide) _

/-- The names are those of the host. -/
theorem keeps_nativeUname : Framed (Keeps (.memory [.uname])) nativeUname :=
  framed_bind (keeps_hostCall (by decide) _) fun _ => framed_bind (keeps_getQ _) fun _ =>
    framed_bind (keeps_translateVMA _) fun _ =>
      framed_bind (keeps_memcpy rfl _ _) fun _ => keeps_setD (by decide) _

/-- The names are constants; the host is not asked. -/
theorem keeps_sysUname (hr : X0 ∈ fp.regs) (hm : fp.mem = true) :
    Framed (Keeps fp) sysUname :=
  framed_bind (keeps_getQ _) fun _ => framed_bind (keeps_translateVMA _) fun _ =>
    framed_bind (keeps_memcpy hm _ _) fun _ => keeps_setD hr _

/-- The time of day is copied to the guest. -/
theorem keeps_sysGettimeofday : Framed (Keeps (.memory [.gettimeofday])) sysGettimeofday :=
  framed_bind (keeps_getQ _) fun _ => framed_bind (keeps_translateVMA _) fun _ =>
    framed_bind (keeps_hostCall (by decide) _) fun _ =>
      framed_bind (keeps_memcpy rfl _ _) fun _ => keeps_setD (by decide) _

/-- The usage is copied to the guest. -/
theorem keeps_sysGetrusage : Framed (Keeps (.memory [.getrusage])) sysGetrusage :=
  framed_bind (keeps_getQ _) fun _ => framed_bind (keeps_translateVMA _) fun _ =>
    framed_bind (keeps_getD _) fun _ => framed_bind (keeps_hostCall (by decide) _) fun _ =>
      framed_bind (keeps_memcpy rfl _ _) fun _ => keeps_setD (by decide) _

/-- The status and the usage are copied to the guest. -/
theorem keeps_sysWait4 : Framed (Keeps (.memory [.wait4])) sysWait4 :=
  framed_bind (keeps_getQ _) fun _ => framed_bind (keeps_translateVMA _) fun _ =>
    framed_bind (keeps_getQ _) fun _ => framed_bind (keeps_translateVMA _) fun _ =>
      framed_bind (keeps_getD _) fun _ => framed_bind (keeps_getD _) fun _ =>
        framed_bind (keeps_hostCall (by decide) _) fun _ =>
          framed_bind (keeps_memcpy rfl _ _) fun _ =>
            framed_bind (keeps_memcpy rfl _ _) fun _ => keeps_setD (by decide) _

/-- `brk` moves the cursor of the heap or reports it. -/
theorem keeps_sysBrk : Framed (Keeps ⟨[X0], [], false, true⟩) sysBrk :=
  framed_bind keeps_getHeap fun _ => framed_bind (keeps_getQ _) fun _ =>
    framed_ite (keeps_setQ (by decide) _)
      (framed_ite (keeps_setHeapCur rfl _) (keeps_error _))

/-- `mmap` moves the cursor of the heap and returns where it was. -/
theorem keeps_sysMmap : Framed (Keeps ⟨[X0], [], false, true⟩) sysMmap := by
  refine framed_bind keeps_getHeap fun _ => framed_bind (keeps_getD _) fun _ =>
    framed_ite (keeps_error _) <| framed_bind (keeps_getD _) fun _ =>
    framed_ite (keeps_error _) <| framed_bind (keeps_getQ _) fun _ =>
    framed_ite ?_ (keeps_error _)
  exact framed_bind (keeps_setQ (by decide) _) fun _ =>
    framed_bind (keeps_getQ _) fun _ => keeps_setHeapCur rfl _

/-- The random bytes are the host's. -/
theorem keeps_sysGetrandom (m : DataModel) :
    Framed (Keeps (.memory [.getentropy])) (sysGetrandom m) :=
  framed_bind (keeps_getQ _) fun _ => framed_bind (keeps_translateVMA _) fun _ =>
    framed_bind (keeps_getQ _) fun _ => framed_bind (keeps_hostCall (by decide) _) fun _ =>
      framed_bind (keeps_memcpy rfl _ _) fun _ =>
        framed_bind (keeps_getQ _) fun _ => keeps_setQ (by decide) _

/-- The random bytes of WASI are constants. -/
theorem keeps_wasiGetrandom (hr : X0 ∈ fp.regs) (hm : fp.mem = true) (m : DataModel) :
    Framed (Keeps fp) (wasiGetrandom m) :=
  framed_bind (keeps_getQ _) fun _ => framed_bind (keeps_translateVMA _) fun _ =>
    framed_bind (keeps_getQ _) fun _ => framed_bind (keeps_memcpy hm _ _) fun _ =>
      framed_bind (keeps_getQ _) fun _ => keeps_setQ hr _

/-- The answer of `statx` is copied to the guest when no error is pending. -/
theorem keeps_statxFinish (hr : X0 ∈ fp.regs) (hm : fp.mem = true) (stat : Nat → BitVec 64) :
    Framed (Keeps fp) (statxFinish stat) := by
  refine framed_bind keeps_getErrno fun _ => framed_ite ?_ (keeps_setQ hr _)
  exact framed_bind (keeps_getQ _) fun _ => framed_bind (keeps_translateVMA _) fun _ =>
    framed_bind (keeps_memcpy hm _ _) fun _ => keeps_setQ hr _

/-- `statx` of an open file, by `fstat`. -/
theorem keeps_sysStatx : Framed (Keeps (.memory [.fstat])) sysStatx := by
  refine framed_bind (keeps_getD _) fun _ => framed_bind (keeps_getD _) fun _ =>
    framed_ite (keeps_error _) ?_
  exact framed_bind (keeps_hostCall (by decide) _) fun _ =>
    framed_bind (keeps_setErrno _) fun _ => keeps_statxFinish (by decide) rfl _

/-- WASI answers `statx` without the host. -/
theorem keeps_wasiStatx (hr : X0 ∈ fp.regs) (hm : fp.mem = true) :
    Framed (Keeps fp) wasiStatx :=
  framed_bind (keeps_getD _) fun _ => framed_ite (keeps_error _) <|
    framed_bind (keeps_setErrno _) fun _ => keeps_statxFinish hr hm _

/-- A process or user identity is the host's. -/
theorem keeps_sysGetId (fn : HostFn) : Framed (Keeps (.result [fn])) (sysGetId fn) :=
  keeps_retD (by simp [Footprint.result]) (by simp [Footprint.result]) _

end Handlers

/-! ### The tables -/

/-- Every call may write `X0`. -/
theorem x0_mem_footprint (t : Target) (n : BitVec 64) : X0 ∈ (footprint t n).regs := by
  have hall : ∀ p ∈ footprints, X0 ∈ p.2.regs := by decide
  have hbase : X0 ∈ ((footprints.lookup n).getD (.result [])).regs := by
    rcases h : footprints.lookup n with - | fp
    · decide
    · obtain ⟨l₁, l₂, e, -⟩ := List.lookup_eq_some_iff.mp h
      exact hall (n, fp) (by simp [e])
  rcases t with m | m | ⟨m, k⟩
  · exact hbase
  · exact hbase
  · by_cases hn : n = AARCH64_SYS_OPENAT
    · simp [footprint, hn]
    · simpa [footprint, hn] using hbase

section

variable {t : Target} {n : BitVec 64}

/-- A call without an implementation. -/
theorem keeps_stub : Framed (Keeps (footprint t n)) emptySyscall :=
  keeps_emptySyscall (x0_mem_footprint t n)

/-- A call that is answered with a constant. -/
theorem keeps_resultQ (v : BitVec 64) : Framed (Keeps (footprint t n)) (setQ X0 v) :=
  keeps_setQ (x0_mem_footprint t n) v

theorem keeps_resultD (v : BitVec 32) : Framed (Keeps (footprint t n)) (setD X0 v) :=
  keeps_setD (x0_mem_footprint t n) v

end

/-- The cases of `SVCNativeCall`. -/
theorem keeps_nativeArms (m : DataModel) :
    ∀ a ∈ nativeArms m, Framed (Keeps (footprint (.native m) a.label)) a.body := by
  have hX0 {n : BitVec 64} : X0 ∈ (footprint (.native m) n).regs := x0_mem_footprint _ n
  simp only [nativeArms, List.forall_mem_cons]
  exact ⟨
    keeps_sysDup, keeps_sysIoctl m, keeps_sysMkdirat, keeps_sysUnlinkat, keeps_sysStatfs,
    keeps_sysTruncate m, keeps_sysFtruncate m, keeps_stub, keeps_sysOpenat, keeps_sysClose,
    keeps_sysLseek m, keeps_sysRead m, keeps_sysWrite m, keeps_sysWritev m, keeps_sysReadlinkat,
    keeps_stub, keeps_sysFsync, keeps_sysExit, keeps_nativeExitGroup, keeps_sysSetTidAddress,
    keeps_sysFutex hX0, keeps_sysSetRobustList hX0, keeps_nativeClockGettime, keeps_nativeTgkill,
    keeps_resultQ _, keeps_sysRtSigaction, keeps_nativeUname, keeps_sysGettimeofday,
    keeps_sysGetrusage, keeps_sysGetId _, keeps_sysGetId _, keeps_sysGetId _, keeps_sysGetId _,
    keeps_sysGetId _, keeps_sysGetId _, keeps_sysGetId _, keeps_sysBrk, keeps_resultQ _,
    keeps_sysMmap, keeps_resultQ _, keeps_sysWait4, keeps_resultQ _, keeps_sysGetrandom m,
    keeps_sysStatx, keeps_resultQ _, List.forall_mem_nil _⟩

/-- The cases of `SVCBrowserCall`. -/
theorem keeps_browserArms (m : DataModel) :
    ∀ a ∈ browserArms m, Framed (Keeps (footprint (.browser m) a.label)) a.body := by
  have hX0 {n : BitVec 64} : X0 ∈ (footprint (.browser m) n).regs := x0_mem_footprint _ n
  simp only [browserArms, List.forall_mem_cons]
  exact ⟨
    keeps_sysDup, keeps_sysIoctl m, keeps_sysMkdirat, keeps_sysUnlinkat, keeps_sysStatfs,
    keeps_sysTruncate m, keeps_sysFtruncate m, keeps_stub, keeps_sysOpenat, keeps_sysClose,
    keeps_sysLseek m, keeps_sysRead m, keeps_sysWrite m, keeps_sysWritev m, keeps_sysReadlinkat,
    keeps_stub, keeps_sysFsync, keeps_sysExit, keeps_sysExit, keeps_sysSetTidAddress,
    keeps_sysFutex hX0, keeps_sysSetRobustList hX0, keeps_browserClockGettime m,
    keeps_browserTgkill, keeps_resultQ _, keeps_sysRtSigaction, keeps_sysUname hX0 rfl,
    keeps_sysGettimeofday, keeps_sysGetId _, keeps_sysGetId _, keeps_sysGetId _, keeps_sysGetId _,
    keeps_sysGetId _, keeps_sysGetId _, keeps_sysGetId _, keeps_sysBrk, keeps_resultQ _,
    keeps_sysMmap, keeps_resultQ _, keeps_resultQ _, keeps_sysGetrandom m, keeps_sysStatx,
    keeps_resultQ _, List.forall_mem_nil _⟩

/-- The cases of `SVCWasiCall`. -/
theorem keeps_wasiArms (m : DataModel) (k : WasiFcntl) :
    ∀ a ∈ wasiArms m k, Framed (Keeps (footprint (.wasi m k) a.label)) a.body := by
  have hX0 {n : BitVec 64} : X0 ∈ (footprint (.wasi m k) n).regs := x0_mem_footprint _ n
  simp only [wasiArms, List.forall_mem_cons]
  exact ⟨
    keeps_stub, keeps_stub, keeps_wasiMkdirat k, keeps_wasiUnlinkat k, keeps_stub,
    keeps_sysTruncate m, keeps_sysFtruncate m, keeps_stub, keeps_wasiOpenat k, keeps_sysClose,
    keeps_sysLseek m, keeps_sysRead m, keeps_sysWrite m, keeps_sysWritev m, keeps_wasiReadlinkat k,
    keeps_stub, keeps_sysFsync, keeps_sysExit, keeps_sysExit, keeps_storeTid hX0 rfl _,
    keeps_sysFutex hX0, keeps_sysSetRobustList hX0, keeps_wasiClockGettime m, keeps_stub,
    keeps_resultQ _, keeps_stub, keeps_sysUname hX0 rfl, keeps_sysGettimeofday, keeps_resultD _,
    keeps_resultD _, keeps_resultD _, keeps_resultD _, keeps_resultD _, keeps_resultD _,
    keeps_resultD _, keeps_sysBrk, keeps_resultQ _, keeps_sysMmap, keeps_resultQ _, keeps_resultQ _,
    keeps_wasiGetrandom hX0 rfl m, keeps_wasiStatx hX0 rfl, keeps_resultQ _, List.forall_mem_nil _⟩

/-- **Every handler stays inside its footprint.** -/
theorem keeps_handler (t : Target) (n : BitVec 64) :
    Framed (Keeps (footprint t n)) (handler t n) := by
  refine bodyOf_induction (keeps_error _) fun a ha hn => hn ▸ ?_
  match t, ha with
  | .native m, ha => exact keeps_nativeArms m a ha
  | .browser m, ha => exact keeps_browserArms m a ha
  | .wasi m k, ha => exact keeps_wasiArms m k a ha

end Elfconv
