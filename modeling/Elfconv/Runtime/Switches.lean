/-
Elfconv/Runtime/Switches.lean

`SVCNativeCall`, `SVCBrowserCall` and `SVCWasiCall`: the three switch statements.

A table lists the arms of one file in the order of its `case` labels, each with the
body of `Elfconv/Runtime/Handlers.lean` and whether it ends in `break`.  Four arms do
not: `dup` and `ioctl` (native and browser), `getrusage` and `wait4` (native).
-/
import Elfconv.Lib.Switch
import Elfconv.Runtime.Handlers

namespace Elfconv

open Svc Switch

/-! ### System call numbers -/

/-- `dup(unsigned int fildes)` -/
def AARCH64_SYS_DUP : BitVec 64 := 23

/-- `ioctl(unsigned int fd, unsigned int cmd, unsigned long arg)` -/
def AARCH64_SYS_IOCTL : BitVec 64 := 29

/-- `mkdirat(int dfd, const char *pathname, umode_t mode)` -/
def AARCH64_SYS_MKDIRAT : BitVec 64 := 34

/-- `unlinkat(int dfd, const char *pathname, int flag)` -/
def AARCH64_SYS_UNLINKAT : BitVec 64 := 35

/-- `statfs(const char *path, struct statfs *buf)` -/
def AARCH64_SYS_STATFS : BitVec 64 := 43

/-- `truncate(const char *path, off_t length)` -/
def AARCH64_SYS_TRUNCATE : BitVec 64 := 45

/-- `ftruncate(int fd, off_t length)` -/
def AARCH64_SYS_FTRUNCATE : BitVec 64 := 46

/-- `faccessat(int dfd, const char *filename, int mode)` -/
def AARCH64_SYS_FACCESSAT : BitVec 64 := 48

/-- `openat(int dfd, const char *filename, int flags, umode_t mode)` -/
def AARCH64_SYS_OPENAT : BitVec 64 := 56

/-- `close(unsigned int fd)` -/
def AARCH64_SYS_CLOSE : BitVec 64 := 57

/-- `lseek(unsigned int fd, off_t offset, unsigned int whence)` -/
def AARCH64_SYS_LSEEK : BitVec 64 := 62

/-- `read(unsigned int fd, char *buf, size_t count)` -/
def AARCH64_SYS_READ : BitVec 64 := 63

/-- `write(unsigned int fd, const char *buf, size_t count)` -/
def AARCH64_SYS_WRITE : BitVec 64 := 64

/-- `writev(unsigned long fd, const struct iovec *vec, unsigned long vlen)` -/
def AARCH64_SYS_WRITEV : BitVec 64 := 66

/-- `readlinkat(int dfd, const char *path, char *buf, int bufsiz)` -/
def AARCH64_SYS_READLINKAT : BitVec 64 := 78

/-- `newfstatat(int dfd, const char *filename, struct stat *statbuf, int flag)` -/
def AARCH64_SYS_NEWFSTATAT : BitVec 64 := 79

/-- `fsync(unsigned int fd)` -/
def AARCH64_SYS_FSYNC : BitVec 64 := 82

/-- `exit(int error_code)` -/
def AARCH64_SYS_EXIT : BitVec 64 := 93

/-- `exit_group(int error_code)`, which only `syscall` reaches. -/
def AARCH64_SYS_EXITGROUP : BitVec 64 := 94

/-- `set_tid_address(int *tidptr)` -/
def AARCH64_SYS_SET_TID_ADDRESS : BitVec 64 := 96

/-- `futex(u32 *uaddr, int op, u32 val, ..)` -/
def AARCH64_SYS_FUTEX : BitVec 64 := 98

/-- `set_robust_list(struct robust_list_head *head, size_t len)` -/
def AARCH64_SYS_SET_ROBUST_LIST : BitVec 64 := 99

/-- `clock_gettime(clockid_t which_clock, struct __kernel_timespace *tp)` -/
def AARCH64_SYS_CLOCK_GETTIME : BitVec 64 := 113

/-- `tgkill(pid_t tgid, pid_t pid, int sig)` -/
def AARCH64_SYS_TGKILL : BitVec 64 := 131

/-- `rt_sigaction(int signum, const struct sigaction *act, struct sigaction *oldact)` -/
def AARCH64_SYS_RT_SIGACTION : BitVec 64 := 134

/-- `rt_sigprocmask(int how, sigset_t *set, sigset_t *oset, size_t sigsetsize)` -/
def AARCH64_SYS_RT_SIGPROCMASK : BitVec 64 := 135

/-- `uname(struct old_utsname *buf)` -/
def AARCH64_SYS_UNAME : BitVec 64 := 160

/-- `getrusage(int who, struct rusage *ru)` -/
def AARCH64_SYS_GETRUSAGE : BitVec 64 := 165

/-- `gettimeofday(struct __kernel_old_timeval *tv, struct timezone *tz)` -/
def AARCH64_SYS_GETTIMEOFDAY : BitVec 64 := 169

/-- `getpid()` -/
def AARCH64_SYS_GETPID : BitVec 64 := 172

/-- `getppid()` -/
def AARCH64_SYS_GETPPID : BitVec 64 := 173

/-- `getuid()`, under the source's name for it. -/
def AARCH64_SYS_GETTUID : BitVec 64 := 174

/-- `geteuid()` -/
def AARCH64_SYS_GETEUID : BitVec 64 := 175

/-- `getgid()` -/
def AARCH64_SYS_GETGID : BitVec 64 := 176

/-- `getegid()` -/
def AARCH64_SYS_GETEGID : BitVec 64 := 177

/-- `gettid()` -/
def AARCH64_SYS_GETTID : BitVec 64 := 178

/-- `brk(unsigned long brk)` -/
def AARCH64_SYS_BRK : BitVec 64 := 214

/-- `munmap(unsigned long addr, size_t len)` -/
def AARCH64_SYS_MUNMAP : BitVec 64 := 215

/-- `mmap(void *start, size_t length, int prot, int flags, int fd, off_t offset)` -/
def AARCH64_SYS_MMAP : BitVec 64 := 222

/-- `mprotect(unsigned long start, size_t len, unsigned long prot)` -/
def AARCH64_SYS_MPROTECT : BitVec 64 := 226

/-- `wait4(pid_t pid, int *stat_addr, int options, struct rusage *ru)` -/
def AARCH64_SYS_WAIT4 : BitVec 64 := 260

/-- `prlimit64(pid_t pid, ..)` -/
def AARCH64_SYS_PRLIMIT64 : BitVec 64 := 261

/-- `getrandom(char *buf, size_t count, unsigned int flags)` -/
def AARCH64_SYS_GETRANDOM : BitVec 64 := 278

/-- `statx(int dfd, const char *path, unsigned flags, unsigned mask, struct statx *buffer)` -/
def AARCH64_SYS_STATX : BitVec 64 := 291

/-- `rseq`, which is not served. -/
def AARCH64_SYS_RSEQ : BitVec 64 := 293

/-! ### The arms -/

/-- A `case` of one of the three switches. -/
abbrev SvcArm := Arm (BitVec 64) Svc

/-- The switch of `SVCNativeCall`. -/
def nativeArms (m : DataModel) : List SvcArm :=
  [ ⟨AARCH64_SYS_DUP, sysDup, false⟩,
    ⟨AARCH64_SYS_IOCTL, sysIoctl m, false⟩,
    ⟨AARCH64_SYS_MKDIRAT, sysMkdirat, true⟩,
    ⟨AARCH64_SYS_UNLINKAT, sysUnlinkat, true⟩,
    ⟨AARCH64_SYS_STATFS, sysStatfs, true⟩,
    ⟨AARCH64_SYS_TRUNCATE, sysTruncate m, true⟩,
    ⟨AARCH64_SYS_FTRUNCATE, sysFtruncate m, true⟩,
    ⟨AARCH64_SYS_FACCESSAT, emptySyscall, true⟩,
    ⟨AARCH64_SYS_OPENAT, sysOpenat, true⟩,
    ⟨AARCH64_SYS_CLOSE, sysClose, true⟩,
    ⟨AARCH64_SYS_LSEEK, sysLseek m, true⟩,
    ⟨AARCH64_SYS_READ, sysRead m, true⟩,
    ⟨AARCH64_SYS_WRITE, sysWrite m, true⟩,
    ⟨AARCH64_SYS_WRITEV, sysWritev m, true⟩,
    ⟨AARCH64_SYS_READLINKAT, sysReadlinkat, true⟩,
    ⟨AARCH64_SYS_NEWFSTATAT, emptySyscall, true⟩,
    ⟨AARCH64_SYS_FSYNC, sysFsync, true⟩,
    ⟨AARCH64_SYS_EXIT, sysExit, true⟩,
    ⟨AARCH64_SYS_EXITGROUP, nativeExitGroup, true⟩,
    ⟨AARCH64_SYS_SET_TID_ADDRESS, sysSetTidAddress, true⟩,
    ⟨AARCH64_SYS_FUTEX, sysFutex, true⟩,
    ⟨AARCH64_SYS_SET_ROBUST_LIST, sysSetRobustList, true⟩,
    ⟨AARCH64_SYS_CLOCK_GETTIME, nativeClockGettime, true⟩,
    ⟨AARCH64_SYS_TGKILL, nativeTgkill, true⟩,
    ⟨AARCH64_SYS_RT_SIGPROCMASK, sysRtSigprocmask, true⟩,
    ⟨AARCH64_SYS_RT_SIGACTION, sysRtSigaction, true⟩,
    ⟨AARCH64_SYS_UNAME, nativeUname, true⟩,
    ⟨AARCH64_SYS_GETTIMEOFDAY, sysGettimeofday, true⟩,
    ⟨AARCH64_SYS_GETRUSAGE, sysGetrusage, false⟩,
    ⟨AARCH64_SYS_GETPID, sysGetId .getpid, true⟩,
    ⟨AARCH64_SYS_GETPPID, sysGetId .getppid, true⟩,
    ⟨AARCH64_SYS_GETTUID, sysGetId .getuid, true⟩,
    ⟨AARCH64_SYS_GETEUID, sysGetId .geteuid, true⟩,
    ⟨AARCH64_SYS_GETGID, sysGetId .getgid, true⟩,
    ⟨AARCH64_SYS_GETEGID, sysGetId .getegid, true⟩,
    ⟨AARCH64_SYS_GETTID, sysGetId .gettid, true⟩,
    ⟨AARCH64_SYS_BRK, sysBrk, true⟩,
    ⟨AARCH64_SYS_MUNMAP, sysMunmap, true⟩,
    ⟨AARCH64_SYS_MMAP, sysMmap, true⟩,
    ⟨AARCH64_SYS_MPROTECT, sysMprotect, true⟩,
    ⟨AARCH64_SYS_WAIT4, sysWait4, false⟩,
    ⟨AARCH64_SYS_PRLIMIT64, sysPrlimit64, true⟩,
    ⟨AARCH64_SYS_GETRANDOM, sysGetrandom m, true⟩,
    ⟨AARCH64_SYS_STATX, sysStatx, true⟩,
    ⟨AARCH64_SYS_RSEQ, sysRseq, true⟩ ]

/-- The switch of `SVCBrowserCall`. -/
def browserArms (m : DataModel) : List SvcArm :=
  [ ⟨AARCH64_SYS_DUP, sysDup, false⟩,
    ⟨AARCH64_SYS_IOCTL, sysIoctl m, false⟩,
    ⟨AARCH64_SYS_MKDIRAT, sysMkdirat, true⟩,
    ⟨AARCH64_SYS_UNLINKAT, sysUnlinkat, true⟩,
    ⟨AARCH64_SYS_STATFS, sysStatfs, true⟩,
    ⟨AARCH64_SYS_TRUNCATE, sysTruncate m, true⟩,
    ⟨AARCH64_SYS_FTRUNCATE, sysFtruncate m, true⟩,
    ⟨AARCH64_SYS_FACCESSAT, emptySyscall, true⟩,
    ⟨AARCH64_SYS_OPENAT, sysOpenat, true⟩,
    ⟨AARCH64_SYS_CLOSE, sysClose, true⟩,
    ⟨AARCH64_SYS_LSEEK, sysLseek m, true⟩,
    ⟨AARCH64_SYS_READ, sysRead m, true⟩,
    ⟨AARCH64_SYS_WRITE, sysWrite m, true⟩,
    ⟨AARCH64_SYS_WRITEV, sysWritev m, true⟩,
    ⟨AARCH64_SYS_READLINKAT, sysReadlinkat, true⟩,
    ⟨AARCH64_SYS_NEWFSTATAT, emptySyscall, true⟩,
    ⟨AARCH64_SYS_FSYNC, sysFsync, true⟩,
    ⟨AARCH64_SYS_EXIT, sysExit, true⟩,
    ⟨AARCH64_SYS_EXITGROUP, sysExit, true⟩,
    ⟨AARCH64_SYS_SET_TID_ADDRESS, sysSetTidAddress, true⟩,
    ⟨AARCH64_SYS_FUTEX, sysFutex, true⟩,
    ⟨AARCH64_SYS_SET_ROBUST_LIST, sysSetRobustList, true⟩,
    ⟨AARCH64_SYS_CLOCK_GETTIME, browserClockGettime m, true⟩,
    ⟨AARCH64_SYS_TGKILL, browserTgkill, true⟩,
    ⟨AARCH64_SYS_RT_SIGPROCMASK, sysRtSigprocmask, true⟩,
    ⟨AARCH64_SYS_RT_SIGACTION, sysRtSigaction, true⟩,
    ⟨AARCH64_SYS_UNAME, sysUname, true⟩,
    ⟨AARCH64_SYS_GETTIMEOFDAY, sysGettimeofday, true⟩,
    ⟨AARCH64_SYS_GETPID, sysGetId .getpid, true⟩,
    ⟨AARCH64_SYS_GETPPID, sysGetId .getppid, true⟩,
    ⟨AARCH64_SYS_GETTUID, sysGetId .getuid, true⟩,
    ⟨AARCH64_SYS_GETEUID, sysGetId .geteuid, true⟩,
    ⟨AARCH64_SYS_GETGID, sysGetId .getgid, true⟩,
    ⟨AARCH64_SYS_GETEGID, sysGetId .getegid, true⟩,
    ⟨AARCH64_SYS_GETTID, sysGetId .gettid, true⟩,
    ⟨AARCH64_SYS_BRK, sysBrk, true⟩,
    ⟨AARCH64_SYS_MUNMAP, sysMunmap, true⟩,
    ⟨AARCH64_SYS_MMAP, sysMmap, true⟩,
    ⟨AARCH64_SYS_MPROTECT, sysMprotect, true⟩,
    ⟨AARCH64_SYS_PRLIMIT64, sysPrlimit64, true⟩,
    ⟨AARCH64_SYS_GETRANDOM, sysGetrandom m, true⟩,
    ⟨AARCH64_SYS_STATX, sysStatx, true⟩,
    ⟨AARCH64_SYS_RSEQ, sysRseq, true⟩ ]

/-- The switch of `SVCWasiCall`, where every arm ends in `break`. -/
def wasiArms (m : DataModel) (k : WasiFcntl) : List SvcArm :=
  [ ⟨AARCH64_SYS_DUP, emptySyscall, true⟩,
    ⟨AARCH64_SYS_IOCTL, emptySyscall, true⟩,
    ⟨AARCH64_SYS_MKDIRAT, wasiMkdirat k, true⟩,
    ⟨AARCH64_SYS_UNLINKAT, wasiUnlinkat k, true⟩,
    ⟨AARCH64_SYS_STATFS, emptySyscall, true⟩,
    ⟨AARCH64_SYS_TRUNCATE, sysTruncate m, true⟩,
    ⟨AARCH64_SYS_FTRUNCATE, sysFtruncate m, true⟩,
    ⟨AARCH64_SYS_FACCESSAT, emptySyscall, true⟩,
    ⟨AARCH64_SYS_OPENAT, wasiOpenat k, true⟩,
    ⟨AARCH64_SYS_CLOSE, sysClose, true⟩,
    ⟨AARCH64_SYS_LSEEK, sysLseek m, true⟩,
    ⟨AARCH64_SYS_READ, sysRead m, true⟩,
    ⟨AARCH64_SYS_WRITE, sysWrite m, true⟩,
    ⟨AARCH64_SYS_WRITEV, sysWritev m, true⟩,
    ⟨AARCH64_SYS_READLINKAT, wasiReadlinkat k, true⟩,
    ⟨AARCH64_SYS_NEWFSTATAT, emptySyscall, true⟩,
    ⟨AARCH64_SYS_FSYNC, sysFsync, true⟩,
    ⟨AARCH64_SYS_EXIT, sysExit, true⟩,
    ⟨AARCH64_SYS_EXITGROUP, sysExit, true⟩,
    ⟨AARCH64_SYS_SET_TID_ADDRESS, wasiSetTidAddress, true⟩,
    ⟨AARCH64_SYS_FUTEX, sysFutex, true⟩,
    ⟨AARCH64_SYS_SET_ROBUST_LIST, sysSetRobustList, true⟩,
    ⟨AARCH64_SYS_CLOCK_GETTIME, wasiClockGettime m, true⟩,
    ⟨AARCH64_SYS_TGKILL, emptySyscall, true⟩,
    ⟨AARCH64_SYS_RT_SIGPROCMASK, sysRtSigprocmask, true⟩,
    ⟨AARCH64_SYS_RT_SIGACTION, emptySyscall, true⟩,
    ⟨AARCH64_SYS_UNAME, sysUname, true⟩,
    ⟨AARCH64_SYS_GETTIMEOFDAY, sysGettimeofday, true⟩,
    ⟨AARCH64_SYS_GETPID, wasiGetId, true⟩,
    ⟨AARCH64_SYS_GETPPID, wasiGetId, true⟩,
    ⟨AARCH64_SYS_GETTUID, wasiGetId, true⟩,
    ⟨AARCH64_SYS_GETEUID, wasiGetId, true⟩,
    ⟨AARCH64_SYS_GETGID, wasiGetId, true⟩,
    ⟨AARCH64_SYS_GETEGID, wasiGetId, true⟩,
    ⟨AARCH64_SYS_GETTID, wasiGetId, true⟩,
    ⟨AARCH64_SYS_BRK, sysBrk, true⟩,
    ⟨AARCH64_SYS_MUNMAP, sysMunmap, true⟩,
    ⟨AARCH64_SYS_MMAP, sysMmap, true⟩,
    ⟨AARCH64_SYS_MPROTECT, sysMprotect, true⟩,
    ⟨AARCH64_SYS_PRLIMIT64, sysPrlimit64, true⟩,
    ⟨AARCH64_SYS_GETRANDOM, wasiGetrandom m, true⟩,
    ⟨AARCH64_SYS_STATX, wasiStatx, true⟩,
    ⟨AARCH64_SYS_RSEQ, sysRseq, true⟩ ]

/-! ### The system-call entry points -/

/-- The hosts `__svc_call` is built for. -/
inductive Target
  | native (m : DataModel)
  | browser (m : DataModel)
  | wasi (m : DataModel) (k : WasiFcntl)

/-- The switch of a host. -/
def Target.arms : Target → List SvcArm
  | .native m => nativeArms m
  | .browser m => browserArms m
  | .wasi m k => wasiArms m k

/-- The `default` of all three. -/
def unknownSyscall : Svc PUnit :=
  Svc.error "Unknown syscall number: %llu, PC: 0x%llx\n"

/-- `RuntimeManager::SVC{Native,Browser,Wasi}Call`. -/
def svcCall (t : Target) : Svc PUnit := do
  setErrno 0
  runSwitch unknownSyscall (← getQ SYSNUMREG) t.arms

/-- The handler of system call `n` alone. -/
def handler (t : Target) (n : BitVec 64) : Svc PUnit :=
  bodyOf unknownSyscall n t.arms

end Elfconv
