/-
Elfconv/Runtime/Handlers.lean

The `case` bodies of `SVCNativeCall`, `SVCBrowserCall` and `SVCWasiCall`.

A body is the code between one `case` label and the next, without the closing
`break`; whether there is one is a matter of the switch (`Elfconv/Runtime/Switches.lean`).
Bodies that the three files share are one definition.  Where they differ only in
the width of `unsigned long`, `size_t` or `_ecv_long`, the data model is a
parameter; `_ecv_long` has the width of `unsigned long` on the hosts each file is
built for.  The system-call debug macros print only in debug builds and are left out.
-/
import Elfconv.Runtime.Svc

namespace Elfconv

open Svc HostMem

/-! ### Constants of `SysTable.h` -/

/-- The `errno` of what elfconv does not do for the guest. -/
def ECV_EACCESS : BitVec 32 := 13

/-- The register that holds the number of the system call. -/
def SYSNUMREG : Gpr := .x 8

/-- The first argument and the result. -/
def X0 : Gpr := .x 0

/-- The second argument. -/
def X1 : Gpr := .x 1

/-- The third argument. -/
def X2 : Gpr := .x 2

/-- The fourth argument. -/
def X3 : Gpr := .x 3

/-- The fifth argument. -/
def X4 : Gpr := .x 4

/-- The sixth argument. -/
def X5 : Gpr := .x 5

/-- The one terminal request of `ioctl` that is served. -/
def ECV_TCGETS : BitVec 32 := 0x5401

/-- How many control characters `struct _ecv_termios` has. -/
def ECV_NCCS : Nat := 19

/-- The flag of `statx` that makes the descriptor itself its file. -/
def ECV_AT_EMPTY_PATH : BitVec 32 := 0x1000

/-- The mask that `statx` reports. -/
def ECV_STATX_BASIC_STATS : BitVec 64 := 0x7ff

/-- The guest's descriptor for the working directory. -/
def LINUX_AD_FDCWD : BitVec 32 := -100

/-- The guest's flag that creates the file. -/
def LINUX_O_CREAT : BitVec 32 := 64

/-- The guest's access mode zero. -/
def LINUX_O_RDONLY : BitVec 32 := 0

/-- The guest's access mode one. -/
def LINUX_O_WRONLY : BitVec 32 := 1

/-- The guest's access mode two. -/
def LINUX_O_RDWR : BitVec 32 := 2

/-- The constants of the WASI host's `fcntl.h`. -/
structure WasiFcntl where
  AT_FDCWD : BitVec 32
  O_RDONLY : BitVec 32
  O_WRONLY : BitVec 32
  O_RDWR : BitVec 32
  O_CREAT : BitVec 32

/-! ### Conversions -/

/-- An `unsigned int` argument. -/
def arg32 (v : BitVec 32) : BitVec 64 := v.setWidth 64

/-- Conversion to `unsigned long`, `size_t` or `_ecv_long`. -/
def DataModel.cast (m : DataModel) (v : BitVec 64) : BitVec 64 :=
  (v.setWidth m.ulong).setWidth 64

/-- `X0_D = f(args)`, `f` returning `int`. -/
def retD (fn : HostFn) (args : List (BitVec 64)) : Svc PUnit := do
  let r ← hostCall fn args
  setD X0 (r.ret.setWidth 32)

/-- `X0_Q = f(args)`, `f` returning a signed integer. -/
def retQ (fn : HostFn) (args : List (BitVec 64)) : Svc PUnit := do
  let r ← hostCall fn args
  setQ X0 r.ret

/-- `X0_Q = -1; errno = _ECV_EACCESS`: the stub of an empty system call. -/
def emptySyscall : Svc PUnit := do
  setQ X0 (-1)
  setErrno ECV_EACCESS

/-! ### Descriptors and paths -/

/-- `dup(oldfd)` -/
def sysDup : Svc PUnit := do
  retD .dup [arg32 (← getD X0)]

/-- `struct _ecv_termios` with `c_line` zero. -/
def termiosBytes (r : HostReply) : List (BitVec 8) :=
  leBytes 4 (r.field 0) ++ leBytes 4 (r.field 1) ++ leBytes 4 (r.field 2) ++
    leBytes 4 (r.field 3) ++ [0] ++ (r.bytes ++ List.replicate ECV_NCCS 0).take ECV_NCCS

/-- `ioctl(fd, cmd, arg)`: any request but `TCGETS` leaves the registers as they are. -/
def sysIoctl (m : DataModel) : Svc PUnit := do
  let fd ← getD X0
  let cmd ← getD X1
  let arg := m.cast (← getQ X2)
  if cmd = ECV_TCGETS then
    let r ← hostCall .tcgetattr [arg32 fd]
    if r.ret.setWidth 32 = (0 : BitVec 32) then
      memcpy (← translateVMA arg) (termiosBytes r)
      setQ X0 0
    else
      setQ X0 (-1)
  else
    pure ⟨⟩

/-- `mkdirat(dfd, pathname, mode)` -/
def sysMkdirat : Svc PUnit := do
  retD .mkdirat [arg32 (← getD X0), ← translateVMA (← getQ X1), arg32 (← getD X2)]

/-- `unlinkat(dfd, pathname, flag)` -/
def sysUnlinkat : Svc PUnit := do
  retD .unlinkat [arg32 (← getD X0), ← translateVMA (← getQ X1), arg32 (← getD X2)]

/-- `if (LINUX_AD_FDCWD == X0_D) X0_Q = AT_FDCWD` -/
def wasiDirfd (k : WasiFcntl) : Svc PUnit := do
  if (← getD X0) = LINUX_AD_FDCWD then setQ X0 (k.AT_FDCWD.signExtend 64) else pure ⟨⟩

/-- `mkdirat` with the host's number for the working directory. -/
def wasiMkdirat (k : WasiFcntl) : Svc PUnit := do
  wasiDirfd k
  sysMkdirat

/-- `unlinkat` with the host's number for the working directory. -/
def wasiUnlinkat (k : WasiFcntl) : Svc PUnit := do
  wasiDirfd k
  sysUnlinkat

/-- `statfs(path, buf)` -/
def sysStatfs : Svc PUnit := do
  let path ← translateVMA (← getQ X0)
  let buf ← translateVMA (← getQ X1)
  let r ← hostCall .statfs [path, buf]
  memcpy buf r.bytes
  setD X0 (r.ret.setWidth 32)

/-- `truncate(path, length)` -/
def sysTruncate (m : DataModel) : Svc PUnit := do
  retD .truncate [← translateVMA (← getQ X0), m.cast (← getQ X1)]

/-- `ftruncate(fd, length)` -/
def sysFtruncate (m : DataModel) : Svc PUnit := do
  retD .ftruncate [arg32 ((← getQ X0).setWidth 32), m.cast (← getQ X1)]

/-- `if (..) perror("openat error!")`, which only prints. -/
def perrorIf (fmt : Bool) : Svc PUnit := do
  if fmt then
    let _ ← hostCall .perror []
  else pure ⟨⟩

/-- `openat(dfd, filename, flags, mode)`, the flags as the guest has them. -/
def sysOpenat : Svc PUnit := do
  let filepath ← translateVMA (← getQ X1)
  retD .openat [arg32 (← getD X0), filepath, arg32 (← getD X2), arg32 (← getD X3)]
  perrorIf ((← getD X0) == -1)

/-- One translation of an open flag, in place in `X2_D`. -/
def translateFlag (linux host : BitVec 32) : Svc PUnit := do
  let f ← getD X2
  if f &&& linux = linux then setD X2 (f &&& ~~~linux ||| host) else pure ⟨⟩

/-- `openat` with the descriptor and then each flag translated in place. -/
def wasiOpenat (k : WasiFcntl) : Svc PUnit := do
  wasiDirfd k
  translateFlag LINUX_O_RDONLY k.O_RDONLY
  translateFlag LINUX_O_RDWR k.O_RDWR
  translateFlag LINUX_O_WRONLY k.O_WRONLY
  translateFlag LINUX_O_CREAT k.O_CREAT
  retD .openat [arg32 (← getD X0), ← translateVMA (← getQ X1), arg32 (← getD X2),
    arg32 (← getD X3)]
  perrorIf ((← getD X0) == -1)

/-- `close(fd)` -/
def sysClose : Svc PUnit := do
  retD .close [arg32 (← getD X0)]

/-- `lseek(fd, offset, whence)` -/
def sysLseek (m : DataModel) : Svc PUnit := do
  retD .lseek [arg32 (← getD X0), m.cast (← getQ X1), arg32 (← getD X2)]

/-- `read(fd, buf, count)` -/
def sysRead (m : DataModel) : Svc PUnit := do
  let buf ← translateVMA (← getQ X1)
  let count := m.cast (← getQ X2)
  let r ← hostCall .read [arg32 (← getD X0), buf, count]
  memcpy buf (r.bytes.take count.toNat)
  setQ X0 r.ret

/-- `write(fd, buf, count)` -/
def sysWrite (m : DataModel) : Svc PUnit := do
  retQ .write [arg32 (← getD X0), ← translateVMA (← getQ X1), m.cast (← getQ X2)]

/-- The loop of `writev`: translate the base of the next `n` vectors at `vec`. -/
def translateIovecs (m : DataModel) (vec : HostPtr) : Nat → Svc (List (BitVec 64))
  | 0 => pure []
  | n + 1 => do
      let word := m.ulong / 8
      let base ← translateVMA (leWord (← load vec word))
      let len := leWord (← load (vec + BitVec.ofNat 64 word) word)
      let rest ← translateIovecs m (vec + BitVec.ofNat 64 (2 * word)) n
      pure (base :: len :: rest)

/-- `writev(fd, vec, vlen)`: the host gets a copy of the vectors with translated bases. -/
def sysWritev (m : DataModel) : Svc PUnit := do
  let fd := m.cast (← getQ X0)
  let vlen := m.cast (← getQ X2)
  let tr_vec ← translateVMA (← getQ X1)
  let cache_vec ← translateIovecs m tr_vec vlen.toNat
  retQ .writev (arg32 (fd.setWidth 32) :: arg32 (vlen.setWidth 32) :: cache_vec)

/-- `readlinkat(dfd, path, buf, bufsiz)` -/
def sysReadlinkat : Svc PUnit := do
  let path ← translateVMA (← getQ X1)
  let buf ← translateVMA (← getQ X2)
  let bufsiz ← getD X3
  let r ← hostCall .readlinkat [arg32 (← getD X0), path, buf, arg32 bufsiz]
  memcpy buf (r.bytes.take bufsiz.toNat)
  setQ X0 r.ret

/-- `readlinkat` with the host's number for the working directory. -/
def wasiReadlinkat (k : WasiFcntl) : Svc PUnit := do
  wasiDirfd k
  sysReadlinkat

/-- `fsync(fd)` -/
def sysFsync : Svc PUnit := do
  retD .fsync [arg32 (← getD X0)]

/-! ### Processes, time and identity -/

/-- `exit(error_code)` -/
def sysExit : Svc PUnit := do
  Svc.exit (← getD X0)

/-- `syscall(AARCH64_SYS_EXITGROUP, X0_D)`, result dropped. -/
def nativeExitGroup : Svc PUnit := do
  let _ ← hostCall .syscall [94, arg32 (← getD X0)]

/-- The thread id goes to the guest's word and to `X0`. -/
def storeTid (tid : BitVec 64) : Svc PUnit := do
  memcpy (← translateVMA (← getQ X0)) (leBytes 4 tid)
  setQ X0 tid

/-- `set_tid_address(tidptr)` -/
def sysSetTidAddress : Svc PUnit := do
  storeTid (← hostCall .gettid []).ret

/-- WASI has no threads: the id is 42. -/
def wasiSetTidAddress : Svc PUnit := storeTid 42

/-- `futex(uaddr, op, ..)`: a wait returns at once, and no other operation is known. -/
def sysFutex : Svc PUnit := do
  if (← getD X1) &&& 0x7F = 0 then setQ X0 0
  else Svc.error "Unknown futex op 0x%08u\n"

/-- `set_robust_list(head, len)`: a success that sets `errno`. -/
def sysSetRobustList : Svc PUnit := do
  setQ X0 0
  setErrno ECV_EACCESS

/-- `memcpy(TranslateVMA(X1_Q), &tp, sizeof(tp)); X0_Q = clock_time` -/
def storeTimespec (r : HostReply) (tv_nsec : BitVec 64) : Svc PUnit := do
  memcpy (← translateVMA (← getQ X1)) (leBytes 8 (r.field 0) ++ leBytes 8 tv_nsec)
  setQ X0 r.ret

/-- `clock_gettime(which_clock, tp)` -/
def nativeClockGettime : Svc PUnit := do
  let r ← hostCall .clock_gettime [arg32 (← getD X0)]
  storeTimespec r (r.field 1)

/-- The browser always asks for `CLOCK_REALTIME`. -/
def browserClockGettime (m : DataModel) : Svc PUnit := do
  let r ← hostCall .clock_gettime [0]
  storeTimespec r (m.cast (r.field 1))

/-- The WASI clock id is a pointer to a local that holds `X0_D`; the log shows `X0_D`. -/
def wasiClockGettime (m : DataModel) : Svc PUnit := do
  let r ← hostCall .clock_gettime [arg32 (← getD X0)]
  storeTimespec r (m.cast (r.field 1))

/-- `tgkill(tgid, pid, sig)` -/
def nativeTgkill : Svc PUnit := do
  retQ .tgkill [arg32 (← getD X0), arg32 (← getD X1), arg32 (← getD X2)]

/-- `kill(X0_D, X1_D)`, with the thread where `kill` takes the signal. -/
def browserTgkill : Svc PUnit := do
  retQ .kill [arg32 (← getD X0), arg32 (← getD X1)]

/-- `rt_sigprocmask(how, set, oset)`: nothing is done. -/
def sysRtSigprocmask : Svc PUnit := setQ X0 0

/-- `rt_sigaction(sig, act, oact)` -/
def sysRtSigaction : Svc PUnit := do
  let act ← translateVMA (← getQ X1)
  let oldact ← translateVMA (← getQ X2)
  let r ← hostCall .sigaction [arg32 (← getD X0), act, oldact]
  memcpy oldact r.bytes
  setD X0 (r.ret.setWidth 32)

/-- A `char[65]` field holding a string. -/
def utsField (s : String) : List (BitVec 8) :=
  ((s.toList.map fun c : Char => BitVec.ofNat 8 c.toNat) ++ List.replicate 65 0).take 65

/-- `struct __my_utsname`, filled by constants. -/
def newUtsname : List (BitVec 8) :=
  utsField "Linux" ++ utsField "xxxxxxx-QEMU-Virtual-Machine" ++ utsField "6.0.0-00-generic" ++
    utsField "#0~elfconv" ++ utsField "aarch64"

/-- `uname(name)` of the host. -/
def nativeUname : Svc PUnit := do
  let r ← hostCall .uname []
  memcpy (← translateVMA (← getQ X0)) r.bytes
  setD X0 (r.ret.setWidth 32)

/-- `uname(name)` of the constants. -/
def sysUname : Svc PUnit := do
  memcpy (← translateVMA (← getQ X0)) newUtsname
  setD X0 0

/-- `gettimeofday(tv, tz)`; the time zone is not asked for. -/
def sysGettimeofday : Svc PUnit := do
  let tv ← translateVMA (← getQ X0)
  let r ← hostCall .gettimeofday [tv, 0]
  memcpy tv r.bytes
  setD X0 (r.ret.setWidth 32)

/-- `getrusage(who, ru)` -/
def sysGetrusage : Svc PUnit := do
  let ru ← translateVMA (← getQ X1)
  let r ← hostCall .getrusage [arg32 (← getD X0), ru]
  memcpy ru r.bytes
  setD X0 (r.ret.setWidth 32)

/-- `X0_D = getpid()` and its siblings. -/
def sysGetId (fn : HostFn) : Svc PUnit := retD fn []

/-- WASI has no process identity: `X0_D = 42`. -/
def wasiGetId : Svc PUnit := setD X0 42

/-- `wait4(pid, stat_addr, options, ru)` -/
def sysWait4 : Svc PUnit := do
  let stat_addr ← translateVMA (← getQ X1)
  let ru ← translateVMA (← getQ X3)
  let r ← hostCall .wait4 [arg32 (← getD X0), stat_addr, arg32 (← getD X2), ru]
  memcpy stat_addr (r.bytes.take 4)
  memcpy ru (r.bytes.drop 4)
  setD X0 (r.ret.setWidth 32)

/-- `prlimit64(pid, resource, ..)`: nothing is done. -/
def sysPrlimit64 : Svc PUnit := setQ X0 0

/-! ### Memory -/

/-- `brk(brk)`: zero asks for the break, and the break may be any address of the heap's area. -/
def sysBrk : Svc PUnit := do
  let heap ← getHeap
  let x0 ← getQ X0
  if x0 = 0 then
    setQ X0 heap.heap_cur
  else if heap.vma ≤ x0 ∧ x0 < heap.vma + heap.len then
    setHeapCur x0
  else
    Svc.error "Unsupported brk(0x%016llx).\n"

/-- `munmap(addr, len)`: nothing is given back. -/
def sysMunmap : Svc PUnit := setQ X0 0

/-- `mmap(addr, len, prot, flags, fd, off)`: an anonymous range is cut off the heap at the break. -/
def sysMmap : Svc PUnit := do
  let heap ← getHeap
  if (← getD X4) ≠ -1 then
    Svc.error "Unsupported mmap (X4=0x%08x)\n"
  else if (← getD X5) ≠ 0 then
    Svc.error "Unsupported mmap (X5=0x%016llx)\n"
  else if (← getQ X0) = 0 then
    setQ X0 heap.heap_cur
    setHeapCur (heap.heap_cur + (← getQ X1))
  else
    Svc.error "Unsupported mmap (X0=0x%016llx)\n"

/-- `mprotect(start, len, prot)`: nothing is done. -/
def sysMprotect : Svc PUnit := setQ X0 0

/-- `rseq(..)`: nothing is done. -/
def sysRseq : Svc PUnit := setQ X0 0

/-- `getrandom(buf, count, flags)` through `getentropy`, whose reply is only tested. -/
def sysGetrandom (m : DataModel) : Svc PUnit := do
  let buf ← translateVMA (← getQ X0)
  let count := m.cast (← getQ X1)
  let r ← hostCall .getentropy [buf, count]
  memcpy buf (r.bytes.take count.toNat)
  let x1 ← getQ X1
  setQ X0 (if r.ret.setWidth 32 = (0 : BitVec 32) then x1 else -1)

/-- WASI gets a buffer of ones. -/
def wasiGetrandom (m : DataModel) : Svc PUnit := do
  let buf ← translateVMA (← getQ X0)
  let count := m.cast (← getQ X1)
  memcpy buf (List.replicate count.toNat 1)
  setQ X0 (← getQ X1)

/-- `struct _ecv_statx`, filled from the fields of `struct stat` in the order
`st_blksize`, `st_nlink`, `st_uid`, `st_gid`, `st_mode`, `st_ino`, `st_size`,
`st_blocks`. -/
def statxBytes (stat : Nat → BitVec 64) : List (BitVec 8) :=
  leBytes 4 ECV_STATX_BASIC_STATS ++ leBytes 4 (stat 0) ++ leBytes 8 0 ++ leBytes 4 (stat 1) ++
    leBytes 4 (stat 2) ++ leBytes 4 (stat 3) ++ leBytes 2 (stat 4) ++ leBytes 2 0 ++
    leBytes 8 (stat 5) ++ leBytes 8 (stat 6) ++ leBytes 8 (stat 7) ++ List.replicate 200 0

/-- The tail of `statx`: what follows the assignment to `errno`. -/
def statxFinish (stat : Nat → BitVec 64) : Svc PUnit := do
  if (← getErrno) = 0 then
    memcpy (← translateVMA (← getQ X4)) (statxBytes stat)
    setQ X0 0
  else
    setQ X0 (-1)

/-- `statx(dfd, path, flags, mask, buffer)` of a descriptor, through `fstat`. -/
def sysStatx : Svc PUnit := do
  let dfd ← getD X0
  let flags ← getD X2
  if flags &&& ECV_AT_EMPTY_PATH = 0 then
    Svc.error "[ERROR] Unsupported statx(flags=0x%08u)\n"
  else
    let r ← hostCall .fstat [arg32 dfd]
    setErrno (r.ret.setWidth 32)
    statxFinish r.field

/-- The WASI body fills no `struct stat`: `errno` is set to `_ECV_EACCESS` just before
the test, so the branch that would read it is not taken. -/
def wasiStatx : Svc PUnit := do
  let flags ← getD X2
  if flags &&& ECV_AT_EMPTY_PATH = 0 then
    Svc.error "[ERROR] Unsupported statx(flags=0x%08u)\n"
  else
    setErrno ECV_EACCESS
    statxFinish fun _ => 0

end Elfconv
