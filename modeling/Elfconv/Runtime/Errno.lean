/-
Elfconv/Runtime/Errno.lean

What the guest sees of a host call that fails.

The kernel hands over a result in the whole of `X0`: the error number, negated, or the
value.  The handlers write the host's result as it is, some of them through the 32-bit view
of `X0`, which keeps the upper half of the register.  `svcCall_visible_iff` says for which
registers, results and error numbers this comes to the same.
-/
import Elfconv.Runtime.SvcCall

namespace Elfconv

open Frame Svc Switch

/-! ### The kernel's convention -/

namespace HostReply

/-- The host call fails with the error number `e`. -/
def Fails (r : HostReply) (e : BitVec 32) : Prop :=
  r.ret = -1 ∧ r.errno = some e ∧ 1 ≤ e.toNat ∧ e.toNat ≤ 4095

/-- A failure is `-e`, a value in `[-4095, -1]`; any other result is the value itself. -/
def Visible (r : HostReply) (x0 : BitVec 64) : Prop :=
  (∀ e, r.Fails e → x0 = -e.setWidth 64 ∧ -4095 ≤ x0.toInt ∧ x0.toInt ≤ -1) ∧
    (r.ret ≠ -1 → x0 = r.ret)

end HostReply

/-- The functions that always succeed, or do not return. -/
def HostFn.canFail : HostFn → Bool
  | .gettid | .getpid | .getppid | .getuid | .geteuid | .getgid | .getegid => false
  | .syscall | .perror => false
  | _ => true

/-- The first host call of the run is the one the handler forwards to, and it can fail. -/
def Forwards (t : Target) (w w' : World) : Prop :=
  ∃ c rest, w'.calls = w.calls ++ c :: rest ∧
    c.fn ∈ (footprint t (w.cpu.qword SYSNUMREG)).fns ∧ c.fn.canFail = true

/-! ### Where the code follows it -/

/-- The upper half of a register. -/
def upper (v : BitVec 64) : BitVec 32 := v.extractLsb' 32 32

/-- The lower half of a register. -/
def lower (v : BitVec 64) : BitVec 32 := v.setWidth 32

/-- The register with the given halves. -/
def halves (hi lo : BitVec 32) : BitVec 64 := hi ++ lo

namespace HostReply

/-- The only error number is 1, the one whose negation is the `-1` of the host. -/
def EpermOnly (r : HostReply) : Prop := ∀ e, r.Fails e → e = 1

/-- Written to the lower half of a register with the upper half of `x0`: on failure that
half is all ones, else it is the upper half of the result. -/
def Fits (r : HostReply) (x0 : BitVec 64) : Prop :=
  (∀ e, r.Fails e → e = 1 ∧ upper x0 = -1) ∧ (r.ret ≠ -1 → upper x0 = upper r.ret)

/-- The halves that other handlers leave are those of the kernel's result. -/
def Replaced (r : HostReply) (hi lo : BitVec 32) : Prop :=
  (∀ e, r.Fails e → hi = -1 ∧ lo = -e) ∧ (r.ret ≠ -1 → hi = upper r.ret ∧ lo = lower r.ret)

end HostReply

/-- The `i`-th host reply from here on. -/
def World.replyAt (w : World) (i : Nat) : HostReply := w.host (w.calls.length + i)

/-- How a handler hands the host's result over. -/
inductive Handover
  /-- in `X0_D` -/
  | dword
  /-- in `X0_D`, after `AT_FDCWD` may have been stored in `X0_Q` -/
  | dirfd (k : WasiFcntl)
  /-- in `X0_Q` -/
  | qword
  /-- `getrandom`: the length or -1 -/
  | entropy
  /-- `statx`: 0 or -1 -/
  | stat
  /-- `dup`, which goes on into `ioctl` and `mkdirat` -/
  | dup
  /-- `ioctl`, which goes on into `mkdirat` -/
  | ioctl
  /-- `getrusage`, which goes on into `getpid` -/
  | rusage
  /-- `wait4`, which goes on into `prlimit64` -/
  | wait

/-- The handlers that do not store an `int` in `X0_D`. -/
def handovers : Target → List (BitVec 64 × Handover)
  | .native _ | .browser _ =>
      [ (AARCH64_SYS_DUP, .dup), (AARCH64_SYS_IOCTL, .ioctl), (AARCH64_SYS_READ, .qword),
        (AARCH64_SYS_WRITE, .qword), (AARCH64_SYS_WRITEV, .qword),
        (AARCH64_SYS_READLINKAT, .qword), (AARCH64_SYS_CLOCK_GETTIME, .qword),
        (AARCH64_SYS_TGKILL, .qword), (AARCH64_SYS_GETRUSAGE, .rusage),
        (AARCH64_SYS_WAIT4, .wait), (AARCH64_SYS_GETRANDOM, .entropy),
        (AARCH64_SYS_STATX, .stat) ]
  | .wasi _ k =>
      [ (AARCH64_SYS_MKDIRAT, .dirfd k), (AARCH64_SYS_UNLINKAT, .dirfd k),
        (AARCH64_SYS_OPENAT, .dirfd k), (AARCH64_SYS_READ, .qword),
        (AARCH64_SYS_WRITE, .qword), (AARCH64_SYS_WRITEV, .qword),
        (AARCH64_SYS_READLINKAT, .qword), (AARCH64_SYS_CLOCK_GETTIME, .qword) ]

/-- What a system call hands to the guest; most give the low word of `X0`. -/
def handover (t : Target) (n : BitVec 64) : Handover := ((handovers t).lookup n).getD .dword

/-- `X0` when the WASI handlers call the host. -/
def World.dirfdX0 (w : World) (k : WasiFcntl) : BitVec 64 :=
  if w.cpu.dword X0 = LINUX_AD_FDCWD then k.AT_FDCWD.signExtend 64 else w.cpu.qword X0

/-- The upper half of `X0` after `X0_Q = 0` or `X0_Q = -1`. -/
def ioctlUpper (r : HostReply) : BitVec 32 := if lower r.ret = 0 then 0 else -1

/-- The registers and replies for which the result of the handler is the kernel's. -/
def Handover.Meets (w : World) : Handover → Prop
  | .dword => w.reply.Fits (w.cpu.qword X0)
  | .dirfd k => w.reply.Fits (w.dirfdX0 k)
  | .qword => w.reply.EpermOnly
  | .entropy =>
      w.reply.EpermOnly ∧
        (w.reply.ret ≠ -1 → lower w.reply.ret = 0 ∧ w.cpu.qword X1 = w.reply.ret)
  | .stat => w.reply.EpermOnly ∧ (w.reply.ret ≠ -1 → w.reply.ret = 0)
  | .dup =>
      if w.cpu.dword X1 = ECV_TCGETS then
        w.reply.Replaced (ioctlUpper (w.replyAt 1)) (lower (w.replyAt 2).ret)
      else w.reply.Replaced (upper (w.cpu.qword X0)) (lower (w.replyAt 1).ret)
  | .ioctl => w.reply.Replaced (ioctlUpper w.reply) (lower (w.replyAt 1).ret)
  | .rusage => w.reply.Replaced (upper (w.cpu.qword X0)) (lower (w.replyAt 1).ret)
  | .wait => w.reply.Replaced 0 0

/-! ### Halves -/

section Halves

variable {r : HostReply} {hi lo : BitVec 32}

/-- A word is its two halves. -/
theorem halves_upper_lower (v : BitVec 64) : halves (upper v) (lower v) = v := by
  refine BitVec.eq_of_toNat_eq ?_
  rw [halves, upper, lower, BitVec.toNat_append, BitVec.extractLsb'_toNat, BitVec.toNat_setWidth,
    ← Nat.shiftLeft_add_eq_or_of_lt (Nat.mod_lt _ (by decide)), Nat.shiftLeft_eq,
    Nat.shiftRight_eq_div_pow]
  have hv := v.isLt
  omega

/-- Two halves make a word exactly if they are its own. -/
theorem halves_eq_iff (v : BitVec 64) : halves hi lo = v ↔ hi = upper v ∧ lo = lower v := by
  constructor
  · rintro rfl
    exact ⟨BitVec.extractLsb'_append_eq_left.symm, BitVec.setWidth_append_eq_right.symm⟩
  · rintro ⟨rfl, rfl⟩
    exact halves_upper_lower v

/-- A negated error number, read without signs. -/
theorem toNat_neg_errno {e : BitVec 32} (h : 1 ≤ e.toNat) :
    (-e.setWidth 64).toNat = 2 ^ 64 - e.toNat := by
  have he := e.isLt
  rw [BitVec.toNat_neg, BitVec.toNat_setWidth, Nat.mod_eq_of_lt (a := e.toNat) (by omega),
    Nat.mod_eq_of_lt (by omega)]

/-- The halves of a negated error number. -/
theorem upper_neg {e : BitVec 32} (h : 1 ≤ e.toNat) : upper (-e.setWidth 64) = -1 := by
  refine BitVec.eq_of_toNat_eq ?_
  have he := e.isLt
  rw [upper, BitVec.extractLsb'_toNat, toNat_neg_errno h, Nat.shiftRight_eq_div_pow,
    show (-1 : BitVec 32).toNat = 2 ^ 32 - 1 from rfl]
  omega

theorem lower_neg (e : BitVec 32) : lower (-e.setWidth 64) = -e := by
  rw [lower, BitVec.setWidth_neg_of_le (by decide), BitVec.setWidth_setWidth_of_le _ (by decide),
    BitVec.setWidth_eq]

/-- The error numbers of Linux, negated, are those that the guest looks for. -/
theorem toInt_neg_errno {e : BitVec 32} (h : 1 ≤ e.toNat) (h' : e.toNat ≤ 4095) :
    -4095 ≤ (-e.setWidth 64).toInt ∧ (-e.setWidth 64).toInt ≤ -1 := by
  rw [BitVec.toInt_eq_toNat_cond, toNat_neg_errno h]
  split
  · omega
  · omega

/-- `-1` is the error number 1. -/
theorem neg_eq_neg_one_iff (e : BitVec 32) : -1 = -e ↔ e = 1 := by
  rw [BitVec.neg_inj]
  exact eq_comm

/-- The kernel's result, half by half. -/
theorem visible_halves (r : HostReply) (hi lo : BitVec 32) :
    r.Visible (halves hi lo) ↔ r.Replaced hi lo := by
  unfold HostReply.Visible HostReply.Replaced
  refine and_congr (forall_congr' fun e => imp_congr_right fun hfails => ?_)
    (imp_congr_right fun _ => halves_eq_iff r.ret)
  obtain ⟨-, -, hpos, hle⟩ := hfails
  rw [halves_eq_iff, upper_neg hpos, lower_neg]
  refine ⟨fun h => h.1, fun h => ⟨h, ?_⟩⟩
  rw [(halves_eq_iff _).mpr ⟨h.1.trans (upper_neg hpos).symm, h.2.trans (lower_neg e).symm⟩]
  exact toInt_neg_errno hpos hle

/-- A result in the lower half. -/
theorem visible_low (r : HostReply) (x0 : BitVec 64) :
    r.Visible (halves (upper x0) (lower r.ret)) ↔ r.Fits x0 := by
  rw [visible_halves]
  refine and_congr (forall_congr' fun e => imp_congr_right fun hfails => ?_)
    (imp_congr_right fun _ => and_iff_left rfl)
  rw [hfails.1, show lower (-1) = -1 from rfl, neg_eq_neg_one_iff]
  exact and_comm

/-- A failure whose `X0` is `-1`. -/
theorem visible_neg_one (hret : r.ret = -1) : r.Visible (-1) ↔ r.EpermOnly := by
  rw [show (-1 : BitVec 64) = halves (-1) (-1) from rfl, visible_halves]
  refine (and_iff_left fun h => absurd hret h).trans
    (forall_congr' fun e => imp_congr_right fun _ => ?_)
  exact (and_iff_right rfl).trans (neg_eq_neg_one_iff e)

/-- A result in the whole register. -/
theorem visible_whole (r : HostReply) : r.Visible r.ret ↔ r.EpermOnly := by
  by_cases hret : r.ret = -1
  · rw [hret]
    exact visible_neg_one hret
  · exact iff_of_true ⟨fun _ h => absurd h.1 hret, fun _ => rfl⟩ fun _ h => absurd h.1 hret

/-- A result that is tested for success, and replaced by `v` or `-1`. -/
theorem visible_tested {v : BitVec 64} {P : Prop}
    (hP : r.ret ≠ -1 → ((if lower r.ret = 0 then v else -1) = r.ret ↔ P)) :
    r.Visible (if lower r.ret = 0 then v else -1) ↔ r.EpermOnly ∧ (r.ret ≠ -1 → P) := by
  by_cases hret : r.ret = -1
  · rw [if_neg (by rw [hret]; decide), visible_neg_one hret]
    exact (and_iff_left fun h => absurd hret h).symm
  · refine ⟨fun h => ⟨fun _ hf => absurd hf.1 hret, fun _ => (hP hret).mp (h.2 hret)⟩,
      fun h => ⟨fun _ hf => absurd hf.1 hret, fun _ => (hP hret).mpr (h.2 hret)⟩⟩

end Halves

/-! ### The handlers -/

/-- A run that forwards to the host leaves the kernel's result exactly when the condition
holds. -/
def Delivers (d : Handover) (p : Svc PUnit) : Prop :=
  Framed (fun w w' => ∀ c rest, w'.calls = w.calls ++ c :: rest → c.fn.canFail = true →
    (w.reply.Visible (w'.cpu.qword X0) ↔ d.Meets w)) p

/-- A run that writes the result to the lower half of `X0`. -/
def Low (p : Svc PUnit) : Prop :=
  Framed (fun w w' => w'.cpu.qword X0 = halves (upper (w.cpu.qword X0)) (lower w.reply.ret)) p

/-- A run that writes the result to the whole of `X0`. -/
def Whole (p : Svc PUnit) : Prop :=
  Framed (fun w w' => w'.cpu.qword X0 = w.reply.ret) p

section Handlers

/-- A register after a write of its low half. -/
theorem qword_setDword (s : State) (r : Gpr) (v : BitVec 32) :
    (s.setDword r v).qword r = halves (upper (s.qword r)) v :=
  State.qword_setQword s r _

/-- A call that hands over the low word of the reply. -/
theorem HasOutcome.low {p : Svc PUnit} (h : HasOutcome World.replyD p) : Low p := by
  intro w a w' hr
  have hx0 : w'.cpu.qword X0 = (w.cpu.setDword X0 (lower w.reply.ret)).qword X0 :=
    congrArg Outcome.x0 (h w a w' hr)
  rw [hx0, qword_setDword]

/-- A call that hands over the whole reply. -/
theorem HasOutcome.whole {p : Svc PUnit} (h : HasOutcome World.replyQ p) : Whole p :=
  fun w a w' hr => congrArg Outcome.x0 (h w a w' hr)

/-- The low word of the reply is visible exactly where it fits under the upper half of `X0`. -/
theorem Low.delivers {p : Svc PUnit} (h : Low p) : Delivers .dword p := by
  intro w a w' hr c rest _ _
  rw [h w a w' hr]
  exact visible_low w.reply (w.cpu.qword X0)

/-- A whole reply shows every failure as minus one, which is `EPERM`. -/
theorem Whole.delivers {p : Svc PUnit} (h : Whole p) : Delivers .qword p := by
  intro w a w' hr c rest _ _
  rw [h w a w' hr]
  exact visible_whole w.reply

/-- The WASI handlers that take a directory descriptor. -/
theorem Low.wasiDirfd {p : Svc PUnit} (h : Low p) (k : WasiFcntl) :
    Delivers (.dirfd k) (do wasiDirfd k; p) := by
  intro w a w' hr c rest _ _
  obtain ⟨_, m, h₁, h₂⟩ := bind_ok hr
  rw [h m a w' h₂]
  have hfits := visible_low w.reply (w.dirfdX0 k)
  rw [Handover.Meets, ← hfits, World.dirfdX0]
  rcases wasiDirfd_ok h₁ with ⟨hfd, rfl⟩ | ⟨hfd, rfl⟩
  · rw [if_neg hfd]
  · rw [if_pos hfd, State.qword_setQword]
    exact Iff.rfl

/-- A handler that calls only functions that cannot fail. -/
theorem delivers_of_keeps {fp : Footprint} {p : Svc PUnit} (h : Framed (Keeps fp) p)
    (hfns : ∀ fn ∈ fp.fns, fn.canFail = false) (d : Handover) : Delivers d p := by
  intro w a w' hr c rest hcalls hfail
  obtain ⟨cs, hcs, hin⟩ := (h w a w' hr).calls
  rw [hcalls] at hcs
  have hc : c ∈ cs := List.append_cancel_left hcs ▸ List.mem_cons_self
  rw [hfns c.fn (hin c hc)] at hfail
  cases hfail

/-- `X0_D = f(..)` after the host has filled a buffer. -/
theorem low_buffer (fn : HostFn) (args : List (BitVec 64)) (dst : HostPtr) :
    Low (do let r ← hostCall fn args; memcpy dst r.bytes; setD X0 (r.ret.setWidth 32)) := by
  intro w _ w' h
  simp only [bind_ok_iff, hostCall_run, memcpy_run, setD_run] at h
  obtain ⟨_, _, e₁, _, _, e₂, e₃⟩ := h
  cases e₁; cases e₂; cases e₃
  exact qword_setDword _ _ _

/-- `statfs` writes a buffer and the low word. -/
theorem low_sysStatfs : Low sysStatfs :=
  framed_after (reads_getQ _) fun _ => framed_after (reads_translateVMA _) fun _ =>
    framed_after (reads_getQ _) fun _ => framed_after (reads_translateVMA _) fun _ =>
      low_buffer _ _ _

/-- `rt_sigaction` writes a buffer and the low word. -/
theorem low_sysRtSigaction : Low sysRtSigaction :=
  framed_after (reads_getQ _) fun _ => framed_after (reads_translateVMA _) fun _ =>
    framed_after (reads_getQ _) fun _ => framed_after (reads_translateVMA _) fun _ =>
      framed_after (reads_getD _) fun _ => low_buffer _ _ _

/-- `gettimeofday` writes a buffer and the low word. -/
theorem low_sysGettimeofday : Low sysGettimeofday :=
  framed_after (reads_getQ _) fun _ => framed_after (reads_translateVMA _) fun _ =>
    low_buffer _ _ _

/-- `uname` writes a buffer and the low word. -/
theorem low_nativeUname : Low nativeUname := by
  intro w _ w' h
  simp only [nativeUname, bind_ok_iff, hostCall_run, getQ_run, memcpy_run, setD_run,
    translateVMA_ok] at h
  obtain ⟨_, _, e₁, _, _, e₂, _, _, ⟨-, rfl⟩, _, _, e₃, e₄⟩ := h
  cases e₁; cases e₂; cases e₃; cases e₄
  exact qword_setDword _ _ _

/-- `close` writes the low word. -/
theorem low_sysClose : Low sysClose :=
  framed_after (reads_getD _) fun _ => (hasOutcome_retD _ _).low

theorem low_sysFsync : Low sysFsync :=
  framed_after (reads_getD _) fun _ => (hasOutcome_retD _ _).low

/-- `read` writes a buffer and the whole reply. -/
theorem whole_sysRead (m : DataModel) : Whole (sysRead m) := by
  intro w _ w' h
  obtain ⟨_, -, ho⟩ := outcome_sysRead m h
  exact congrArg Outcome.x0 ho

/-- `readlinkat` writes a buffer and the whole reply. -/
theorem whole_sysReadlinkat : Whole sysReadlinkat := by
  intro w _ w' h
  obtain ⟨_, -, ho⟩ := outcome_sysReadlinkat h
  exact congrArg Outcome.x0 ho

theorem whole_wasiReadlinkat (k : WasiFcntl) : Whole (wasiReadlinkat k) := by
  intro w _ w' h
  obtain ⟨_, -, ho⟩ := outcome_wasiReadlinkat h
  exact congrArg Outcome.x0 ho

/-- The clocks write a time and the whole reply. -/
theorem whole_storeTimespec (fn : HostFn) (args : List (BitVec 64))
    (nsec : BitVec 64 → BitVec 64) :
    Whole (do let r ← hostCall fn args; storeTimespec r (nsec (r.field 1))) := by
  intro w _ w' h
  obtain ⟨_, e, h₂⟩ := outcome_clockGettime nsec h
  exact congrArg Outcome.x0 h₂

theorem whole_nativeClockGettime : Whole nativeClockGettime :=
  framed_after (reads_getD _) fun _ => whole_storeTimespec _ _ id

theorem whole_browserClockGettime (m : DataModel) : Whole (browserClockGettime m) :=
  whole_storeTimespec _ _ m.cast

theorem whole_wasiClockGettime (m : DataModel) : Whole (wasiClockGettime m) :=
  framed_after (reads_getD _) fun _ => whole_storeTimespec _ _ m.cast

theorem whole_nativeTgkill : Whole nativeTgkill :=
  framed_after (reads_getD _) fun _ => framed_after (reads_getD _) fun _ =>
    framed_after (reads_getD _) fun _ => (hasOutcome_retQ _ _).whole

theorem whole_browserTgkill : Whole browserTgkill :=
  framed_after (reads_getD _) fun _ => framed_after (reads_getD _) fun _ =>
    (hasOutcome_retQ _ _).whole

/-- `getrandom` makes minus one of a failure, whatever the error was. -/
theorem delivers_sysGetrandom (m : DataModel) : Delivers .entropy (sysGetrandom m) := by
  intro w _ w' h c rest _ _
  simp only [sysGetrandom, bind_ok_iff, getQ_run, hostCall_run, memcpy_run, setQ_run,
    translateVMA_ok] at h
  obtain ⟨_, _, e₁, _, _, ⟨-, rfl⟩, _, _, e₂, _, _, e₃, _, _, e₄, _, _, e₅, e₆⟩ := h
  cases e₁; cases e₂; cases e₃; cases e₄; cases e₅; cases e₆
  rw [State.qword_setQword]
  refine visible_tested fun hret => ?_
  split
  · rename_i hzero
    exact (and_iff_right hzero).symm
  · rename_i hzero
    exact iff_of_false (fun h => hret h.symm) fun h => hzero h.1

/-- `statx` makes minus one of a failure, whatever the error was. -/
theorem delivers_sysStatx : Delivers .stat sysStatx := by
  intro w _ w' h c rest _ _
  simp only [sysStatx, bind_ok_iff, getD_run] at h
  obtain ⟨_, _, e₁, _, _, e₂, h⟩ := h
  cases e₁; cases e₂
  split at h
  · cases h
  · simp only [statxFinish, bind_ok_iff, hostCall_run, setErrno_run] at h
    obtain ⟨_, _, e₃, _, _, e₄, _, _, e₅, h⟩ := h
    cases e₃; cases e₄; cases e₅
    -- the result is copied to the guest on success only
    have hx0 : w'.cpu.qword X0 = if lower w.reply.ret = 0 then 0 else -1 := by
      split at h
      · rename_i hzero
        simp only [bind_ok_iff, getQ_run, memcpy_run, setQ_run, translateVMA_ok] at h
        obtain ⟨_, _, e₆, _, _, ⟨-, rfl⟩, _, _, e₇, e₈⟩ := h
        cases e₆; cases e₇; cases e₈
        rw [State.qword_setQword, if_pos (show lower w.reply.ret = 0 from hzero)]
      · rename_i hzero
        cases h
        rw [State.qword_setQword, if_neg (show lower w.reply.ret ≠ 0 from hzero)]
    rw [hx0]
    refine visible_tested fun hret => ?_
    split
    · exact eq_comm
    · rename_i hzero
      refine iff_of_false (fun h => hret h.symm) fun h => hzero ?_
      rw [h]
      rfl

end Handlers

/-! ### The arms that break -/

/-- Anything but the host may be touched. -/
def noHost : Footprint := ⟨[X0], [], true, true⟩

/-- A handler without host calls. -/
theorem delivers_of_noHost {p : Svc PUnit} (h : Framed (Keeps noHost) p) (d : Handover) :
    Delivers d p :=
  delivers_of_keeps h (fun _ hfn => absurd hfn List.not_mem_nil) d

/-- A call that cannot fail has no error to hand over. -/
theorem delivers_sysGetId {fn : HostFn} (h : fn.canFail = false) (d : Handover) :
    Delivers d (sysGetId fn) :=
  delivers_of_keeps (keeps_sysGetId fn) (fun _ hfn => List.mem_singleton.mp hfn ▸ h) d

theorem delivers_sysSetTidAddress (d : Handover) : Delivers d sysSetTidAddress :=
  delivers_of_keeps keeps_sysSetTidAddress (by decide) d

theorem delivers_nativeExitGroup (d : Handover) : Delivers d nativeExitGroup :=
  delivers_of_keeps keeps_nativeExitGroup (by decide) d

/-- Neither call about the heap asks the host. -/
theorem delivers_sysBrk (d : Handover) : Delivers d sysBrk :=
  delivers_of_keeps keeps_sysBrk (by decide) d

theorem delivers_sysMmap (d : Handover) : Delivers d sysMmap :=
  delivers_of_keeps keeps_sysMmap (by decide) d

/-- A constant result asks nothing of the host. -/
theorem delivers_setQ (v : BitVec 64) (d : Handover) : Delivers d (setQ X0 v) :=
  delivers_of_noHost (keeps_setQ (by decide) v) d

theorem delivers_emptySyscall (d : Handover) : Delivers d emptySyscall :=
  delivers_of_noHost (keeps_emptySyscall (by decide)) d

theorem delivers_sysExit (d : Handover) : Delivers d sysExit :=
  delivers_of_noHost keeps_sysExit d

theorem delivers_sysFutex (d : Handover) : Delivers d sysFutex :=
  delivers_of_noHost (keeps_sysFutex (by decide)) d

theorem delivers_sysSetRobustList (d : Handover) : Delivers d sysSetRobustList :=
  delivers_of_noHost (keeps_sysSetRobustList (by decide)) d

theorem delivers_sysUname (d : Handover) : Delivers d sysUname :=
  delivers_of_noHost (keeps_sysUname (by decide) rfl) d

theorem delivers_wasiGetId (d : Handover) : Delivers d wasiGetId :=
  delivers_of_noHost (keeps_setD (by decide) _) d

/-- Every native arm that ends in `break` hands over what `handover` says. -/
theorem delivers_nativeArms (m : DataModel) :
    ∀ a ∈ nativeArms m, a.breaks = true → Delivers (handover (.native m) a.label) a.body := by
  simp only [nativeArms, List.forall_mem_cons]
  have noFall {P : Prop} : false = true → P := fun h => absurd h Bool.false_ne_true
  refine ⟨noFall, noFall, fun _ => outcome_sysMkdirat.low.delivers,
    fun _ => outcome_sysUnlinkat.low.delivers, fun _ => low_sysStatfs.delivers,
    fun _ => (outcome_sysTruncate m).low.delivers,
    fun _ => (outcome_sysFtruncate m).low.delivers, fun _ => delivers_emptySyscall _,
    fun _ => outcome_sysOpenat.low.delivers, fun _ => low_sysClose.delivers,
    fun _ => (outcome_sysLseek m).low.delivers, fun _ => (whole_sysRead m).delivers,
    fun _ => (outcome_sysWrite m).whole.delivers, fun _ => (outcome_sysWritev m).whole.delivers,
    fun _ => whole_sysReadlinkat.delivers, fun _ => delivers_emptySyscall _,
    fun _ => low_sysFsync.delivers, fun _ => delivers_sysExit _,
    fun _ => delivers_nativeExitGroup _, fun _ => delivers_sysSetTidAddress _,
    fun _ => delivers_sysFutex _, fun _ => delivers_sysSetRobustList _,
    fun _ => whole_nativeClockGettime.delivers, fun _ => whole_nativeTgkill.delivers,
    fun _ => delivers_setQ _ _, fun _ => low_sysRtSigaction.delivers,
    fun _ => low_nativeUname.delivers, fun _ => low_sysGettimeofday.delivers, noFall,
    fun _ => delivers_sysGetId rfl _, fun _ => delivers_sysGetId rfl _,
    fun _ => delivers_sysGetId rfl _, fun _ => delivers_sysGetId rfl _,
    fun _ => delivers_sysGetId rfl _, fun _ => delivers_sysGetId rfl _,
    fun _ => delivers_sysGetId rfl _, fun _ => delivers_sysBrk _, fun _ => delivers_setQ _ _,
    fun _ => delivers_sysMmap _, fun _ => delivers_setQ _ _, noFall,
    fun _ => delivers_setQ _ _, fun _ => delivers_sysGetrandom m, fun _ => delivers_sysStatx,
    fun _ => delivers_setQ _ _, by simp⟩

/-- Every browser arm that ends in `break` hands over what `handover` says. -/
theorem delivers_browserArms (m : DataModel) :
    ∀ a ∈ browserArms m, a.breaks = true → Delivers (handover (.browser m) a.label) a.body := by
  simp only [browserArms, List.forall_mem_cons]
  have noFall {P : Prop} : false = true → P := fun h => absurd h Bool.false_ne_true
  refine ⟨noFall, noFall, fun _ => outcome_sysMkdirat.low.delivers,
    fun _ => outcome_sysUnlinkat.low.delivers, fun _ => low_sysStatfs.delivers,
    fun _ => (outcome_sysTruncate m).low.delivers,
    fun _ => (outcome_sysFtruncate m).low.delivers, fun _ => delivers_emptySyscall _,
    fun _ => outcome_sysOpenat.low.delivers, fun _ => low_sysClose.delivers,
    fun _ => (outcome_sysLseek m).low.delivers, fun _ => (whole_sysRead m).delivers,
    fun _ => (outcome_sysWrite m).whole.delivers, fun _ => (outcome_sysWritev m).whole.delivers,
    fun _ => whole_sysReadlinkat.delivers, fun _ => delivers_emptySyscall _,
    fun _ => low_sysFsync.delivers, fun _ => delivers_sysExit _, fun _ => delivers_sysExit _,
    fun _ => delivers_sysSetTidAddress _, fun _ => delivers_sysFutex _,
    fun _ => delivers_sysSetRobustList _, fun _ => (whole_browserClockGettime m).delivers,
    fun _ => whole_browserTgkill.delivers, fun _ => delivers_setQ _ _,
    fun _ => low_sysRtSigaction.delivers, fun _ => delivers_sysUname _,
    fun _ => low_sysGettimeofday.delivers, fun _ => delivers_sysGetId rfl _,
    fun _ => delivers_sysGetId rfl _, fun _ => delivers_sysGetId rfl _,
    fun _ => delivers_sysGetId rfl _, fun _ => delivers_sysGetId rfl _,
    fun _ => delivers_sysGetId rfl _, fun _ => delivers_sysGetId rfl _,
    fun _ => delivers_sysBrk _, fun _ => delivers_setQ _ _, fun _ => delivers_sysMmap _,
    fun _ => delivers_setQ _ _, fun _ => delivers_setQ _ _, fun _ => delivers_sysGetrandom m,
    fun _ => delivers_sysStatx, fun _ => delivers_setQ _ _, by simp⟩

/-- Every WASI arm hands over what `handover` says. -/
theorem delivers_wasiArms (m : DataModel) (k : WasiFcntl) :
    ∀ a ∈ wasiArms m k, a.breaks = true → Delivers (handover (.wasi m k) a.label) a.body := by
  simp only [wasiArms, List.forall_mem_cons]
  refine ⟨fun _ => delivers_emptySyscall _, fun _ => delivers_emptySyscall _,
    fun _ => outcome_sysMkdirat.low.wasiDirfd k, fun _ => outcome_sysUnlinkat.low.wasiDirfd k,
    fun _ => delivers_emptySyscall _, fun _ => (outcome_sysTruncate m).low.delivers,
    fun _ => (outcome_sysFtruncate m).low.delivers, fun _ => delivers_emptySyscall _,
    fun _ => (outcome_wasiOpenat_flags k).low.wasiDirfd k, fun _ => low_sysClose.delivers,
    fun _ => (outcome_sysLseek m).low.delivers, fun _ => (whole_sysRead m).delivers,
    fun _ => (outcome_sysWrite m).whole.delivers, fun _ => (outcome_sysWritev m).whole.delivers,
    fun _ => (whole_wasiReadlinkat k).delivers, fun _ => delivers_emptySyscall _,
    fun _ => low_sysFsync.delivers, fun _ => delivers_sysExit _, fun _ => delivers_sysExit _,
    fun _ => delivers_of_noHost (keeps_storeTid (by decide) rfl _) _,
    fun _ => delivers_sysFutex _, fun _ => delivers_sysSetRobustList _,
    fun _ => (whole_wasiClockGettime m).delivers, fun _ => delivers_emptySyscall _,
    fun _ => delivers_setQ _ _, fun _ => delivers_emptySyscall _, fun _ => delivers_sysUname _,
    fun _ => low_sysGettimeofday.delivers, fun _ => delivers_wasiGetId _,
    fun _ => delivers_wasiGetId _, fun _ => delivers_wasiGetId _, fun _ => delivers_wasiGetId _,
    fun _ => delivers_wasiGetId _, fun _ => delivers_wasiGetId _, fun _ => delivers_wasiGetId _,
    fun _ => delivers_sysBrk _, fun _ => delivers_setQ _ _, fun _ => delivers_sysMmap _,
    fun _ => delivers_setQ _ _, fun _ => delivers_setQ _ _,
    fun _ => delivers_of_noHost (keeps_wasiGetrandom (by decide) rfl m) _,
    fun _ => delivers_of_noHost (keeps_wasiStatx (by decide) rfl) _,
    fun _ => delivers_setQ _ _, by simp⟩

/-- A handler that is not followed by another one. -/
theorem delivers_handler (t : Target) {n : BitVec 64} (hn : n ∉ t.fallThrough) :
    Delivers (handover t n) (handler t n) := by
  refine bodyOf_induction (framed_throw _) fun a ha hlabel => ?_
  subst hlabel
  have hbreaks := breaks_of_not_mem_fallLabels ha hn
  match t, ha with
  | .native m, ha => exact delivers_nativeArms m a ha hbreaks
  | .browser m, ha => exact delivers_browserArms m a ha hbreaks
  | .wasi m k, ha => exact delivers_wasiArms m k a ha hbreaks

/-! ### The arms that fall through -/

section FallThrough

variable {m : DataModel} {w w' : World}

/-- The replies after some calls are those that come later. -/
theorem replyAt_of_calls {i : Nat} (hhost : w'.host = w.host)
    (hlen : w'.calls.length = w.calls.length + i) (j : Nat) :
    w'.replyAt j = w.replyAt (i + j) := by
  rw [World.replyAt, World.replyAt, hhost, hlen, Nat.add_assoc]

theorem reply_of_calls {i : Nat} (hhost : w'.host = w.host)
    (hlen : w'.calls.length = w.calls.length + i) : w'.reply = w.replyAt i :=
  replyAt_of_calls hhost hlen 0

/-- A write of the low half keeps the upper half as it was. -/
theorem upper_setDword (s : State) (r : Gpr) (v : BitVec 32) :
    upper ((s.setDword r v).qword r) = upper (s.qword r) := by
  rw [qword_setDword]
  exact ((halves_eq_iff _).mp rfl).1.symm

/-- `ioctl`: `tcgetattr` is called for `TCGETS` alone. -/
theorem sysIoctl_ok (h : sysIoctl m w = .ok (⟨⟩, w')) :
    if w.cpu.dword X1 = ECV_TCGETS then
      w'.host = w.host ∧ w'.calls.length = w.calls.length + 1 ∧
        upper (w'.cpu.qword X0) = ioctlUpper w.reply
    else w' = w := by
  simp only [sysIoctl, bind_ok_iff, getD_run, getQ_run] at h
  obtain ⟨_, _, e₁, _, _, e₂, _, _, e₃, h⟩ := h
  cases e₁; cases e₂; cases e₃
  split
  · rename_i hcmd
    rw [if_pos hcmd] at h
    simp only [bind_ok_iff, hostCall_run] at h
    obtain ⟨_, _, e₄, h⟩ := h
    cases e₄
    split at h
    -- the terminal's settings are copied to the guest when the host gave them
    · rename_i hzero
      simp only [bind_ok_iff, memcpy_run, setQ_run, translateVMA_ok] at h
      obtain ⟨_, _, ⟨-, rfl⟩, _, _, e₅, e₆⟩ := h
      cases e₅; cases e₆
      refine ⟨rfl, List.length_append, ?_⟩
      rw [State.qword_setQword, ioctlUpper, if_pos (show lower w.reply.ret = 0 from hzero)]
      rfl
    · rename_i hzero
      cases h
      refine ⟨rfl, List.length_append, ?_⟩
      rw [State.qword_setQword, ioctlUpper, if_neg (show lower w.reply.ret ≠ 0 from hzero)]
      rfl
  · rename_i hcmd
    rw [if_neg hcmd] at h
    cases h
    rfl

/-- `X0` after `ioctl` and `mkdirat`. -/
theorem ioctl_mkdirat_x0 (h : (do sysIoctl m; sysMkdirat) w = .ok (⟨⟩, w')) :
    w'.cpu.qword X0 =
      if w.cpu.dword X1 = ECV_TCGETS then
        halves (ioctlUpper w.reply) (lower (w.replyAt 1).ret)
      else halves (upper (w.cpu.qword X0)) (lower w.reply.ret) := by
  obtain ⟨_, w₁, h₁, h₂⟩ := bind_ok h
  have hlow := outcome_sysMkdirat.low w₁ ⟨⟩ w' h₂
  have hioctl := sysIoctl_ok h₁
  split at hioctl
  · rename_i hcmd
    obtain ⟨hhost, hlen, hupper⟩ := hioctl
    rw [if_pos hcmd, hlow, hupper, reply_of_calls hhost hlen]
  · rename_i hcmd
    rw [if_neg hcmd, hlow, hioctl]

/-- What `dup` leaves, where the code goes on with `ioctl`. -/
theorem sysDup_ok (h : sysDup w = .ok (⟨⟩, w')) :
    upper (w'.cpu.qword X0) = upper (w.cpu.qword X0) ∧ w'.cpu.dword X1 = w.cpu.dword X1 ∧
      w'.reply = w.replyAt 1 ∧ w'.replyAt 1 = w.replyAt 2 := by
  have hhost : w'.host = w.host := by
    cases h
    rfl
  have hlen : w'.calls.length = w.calls.length + 1 := by
    cases h
    exact List.length_append
  refine ⟨?_, ?_, reply_of_calls hhost hlen, replyAt_of_calls hhost hlen 1⟩
  · cases h
    exact upper_setDword _ _ _
  · cases h
    rw [State.dword, State.gpr_setDword_of_ne _ _ (by decide)]
    rfl

/-- `dup` falls through to two other calls, and the last of them writes the result. -/
theorem visible_dup (h : (do sysDup; sysIoctl m; sysMkdirat) w = .ok (⟨⟩, w')) :
    w.reply.Visible (w'.cpu.qword X0) ↔ Handover.dup.Meets w := by
  obtain ⟨_, w₁, h₁, h₂⟩ := bind_ok h
  obtain ⟨hupper, hcmd, hreply, hnext⟩ := sysDup_ok h₁
  have hx0 := ioctl_mkdirat_x0 h₂
  rw [hupper, hcmd, hreply, hnext] at hx0
  rw [hx0, Handover.Meets]
  split
  · exact visible_halves _ _ _
  · exact visible_halves _ _ _

/-- The `ioctl` that forwards has the command `TCGETS`: any other goes on into `mkdirat`
without a call of its own. -/
theorem visible_ioctl (h : (do sysIoctl m; sysMkdirat) w = .ok (⟨⟩, w')) {c : HostCall}
    {rest : List HostCall} (hcalls : w'.calls = w.calls ++ c :: rest) (hc : c.fn ≠ .mkdirat) :
    w.reply.Visible (w'.cpu.qword X0) ↔ Handover.ioctl.Meets w := by
  have hx0 := ioctl_mkdirat_x0 h
  obtain ⟨_, w₁, h₁, h₂⟩ := bind_ok h
  have hioctl := sysIoctl_ok h₁
  by_cases hcmd : w.cpu.dword X1 = ECV_TCGETS
  · rw [if_pos hcmd] at hx0
    rw [hx0]
    exact visible_halves _ _ _
  · rw [if_neg hcmd] at hioctl
    rw [hioctl] at h₂
    obtain ⟨cs, hcs, hin⟩ := (keeps_sysMkdirat w ⟨⟩ w' h₂).calls
    rw [hcalls] at hcs
    have hmem : c ∈ cs := List.append_cancel_left hcs ▸ List.mem_cons_self
    exact absurd (List.mem_singleton.mp (hin c hmem)) hc

/-- What `getrusage` leaves, where the code goes on with `getpid`. -/
theorem sysGetrusage_ok (h : sysGetrusage w = .ok (⟨⟩, w')) :
    upper (w'.cpu.qword X0) = upper (w.cpu.qword X0) ∧ w'.reply = w.replyAt 1 := by
  simp only [sysGetrusage, bind_ok_iff, getQ_run, getD_run, hostCall_run, memcpy_run, setD_run,
    translateVMA_ok] at h
  obtain ⟨_, _, e₁, _, _, ⟨-, rfl⟩, _, _, e₂, _, _, e₃, _, _, e₄, e₅⟩ := h
  cases e₁; cases e₂; cases e₃; cases e₄; cases e₅
  exact ⟨upper_setDword _ _ _, reply_of_calls rfl List.length_append⟩

/-- `getrusage` falls through to a call that cannot fail. -/
theorem visible_getrusage (h : (do sysGetrusage; sysGetId .getpid) w = .ok (⟨⟩, w')) :
    w.reply.Visible (w'.cpu.qword X0) ↔ Handover.rusage.Meets w := by
  obtain ⟨_, w₁, h₁, h₂⟩ := bind_ok h
  obtain ⟨hupper, hreply⟩ := sysGetrusage_ok h₁
  have hlow := (hasOutcome_retD .getpid []).low w₁ ⟨⟩ w' h₂
  rw [hlow, hupper, hreply]
  exact visible_halves _ _ _

/-- `wait4` falls through to a stub. -/
theorem visible_wait4 (h : (do sysWait4; sysPrlimit64) w = .ok (⟨⟩, w')) :
    w.reply.Visible (w'.cpu.qword X0) ↔ Handover.wait.Meets w := by
  obtain ⟨_, w₁, h₁, h₂⟩ := bind_ok h
  cases h₂
  rw [State.qword_setQword]
  exact visible_halves w.reply 0 0

end FallThrough

/-! ### Failure is visible -/

/-- The condition does not look at the old `errno`. -/
theorem meets_errno (w : World) (v : BitVec 32) (d : Handover) :
    d.Meets { w with errno := v } ↔ d.Meets w := by
  cases d <;> exact Iff.rfl

/-- The switch, from the state with `errno` cleared. -/
theorem runSwitch_visible {t : Target} {n : BitVec 64} {w w' : World}
    (h : runSwitch unknownSyscall n t.arms w = .ok (⟨⟩, w')) {c : HostCall}
    {rest : List HostCall} (hcalls : w'.calls = w.calls ++ c :: rest)
    (hfn : c.fn ∈ (footprint t n).fns) (hfail : c.fn.canFail = true) :
    w.reply.Visible (w'.cpu.qword X0) ↔ (handover t n).Meets w := by
  by_cases hfall : n ∈ t.fallThrough
  · -- the four that fall through into the next label, each by itself
    have hcases := fallThrough_subset t hfall
    simp only [List.mem_cons, List.not_mem_nil, or_false] at hcases
    rcases hcases with rfl | rfl | rfl | rfl
    · match t with
      | .native m => exact visible_dup (m := m) h
      | .browser m => exact visible_dup (m := m) h
      | .wasi m k => cases hfall
    -- `ioctl` runs into `mkdirat`, whose call is not in its own footprint
    · have hne : c.fn ≠ .mkdirat := by
        have hfns : (footprint t AARCH64_SYS_IOCTL).fns = [.tcgetattr] := by cases t <;> rfl
        rw [hfns, List.mem_singleton] at hfn
        rw [hfn]
        decide
      match t with
      | .native m => exact visible_ioctl (m := m) h hcalls hne
      | .browser m => exact visible_ioctl (m := m) h hcalls hne
      | .wasi m k => cases hfall
    · match t with
      | .native m => exact visible_getrusage h
      | .browser m => cases h
      | .wasi m k => cases hfall
    · match t with
      | .native m => exact visible_wait4 h
      | .browser m => cases h
      | .wasi m k => cases hfall
  · rw [runSwitch_eq_bodyOf hfall] at h
    exact delivers_handler t hfall w ⟨⟩ w' h c rest hcalls hfail

/-- **The guest sees the kernel's result of a system call exactly when the registers and
the host's replies meet the condition of its handler.** -/
theorem svcCall_visible_iff {t : Target} {w w' : World} (h : svcCall t w = .ok (⟨⟩, w'))
    (hf : Forwards t w w') :
    w.reply.Visible (w'.cpu.qword X0) ↔
      (handover t (w.cpu.qword SYSNUMREG)).Meets w := by
  obtain ⟨c, rest, hcalls, hfn, hfail⟩ := hf
  rw [← meets_errno w 0]
  exact runSwitch_visible (w := { w with errno := 0 }) h hcalls hfn hfail

/-! ### A failing `close` -/

/-- `close(3)` with `X0 = x0`, and a host that fails with the error number `e`. -/
def closing (x0 : BitVec 64) (e : BitVec 32) : World :=
  { World.sample (callRegs 57 x0 0) (-1) with
    host := fun _ => ⟨-1, some e, [], fun _ => 0⟩ }

/-- The world after `close(3)`. -/
def closed (x0 : BitVec 64) (e : BitVec 32) : World :=
  { (closing x0 e).called .close [arg32 ((closing x0 e).cpu.dword X0)] with
    cpu := (closing x0 e).cpu.setDword X0 ((closing x0 e).reply.ret.setWidth 32) }

/-- The run of the sample, a `close` that fails. -/
theorem svcCall_closing (t : Target) (x0 : BitVec 64) (e : BitVec 32) :
    svcCall t (closing x0 e) = .ok (⟨⟩, closed x0 e) := by
  cases t <;> rfl

theorem forwards_closing (t : Target) (x0 : BitVec 64) (e : BitVec 32) :
    Forwards t (closing x0 e) (closed x0 e) :=
  ⟨_, [], rfl, by cases t <;> exact List.mem_singleton.mpr rfl, rfl⟩

/-- With the error number 1 and an upper half of ones the condition holds. -/
theorem svcCall_visible_iff_close :
    (closing 0xffffffff00000003 1).reply.Visible
      ((closed 0xffffffff00000003 1).cpu.qword X0) :=
  (svcCall_visible_iff (svcCall_closing (.native ⟨64⟩) _ _) (forwards_closing _ _ _)).mpr
    ⟨fun e he => ⟨Option.some.inj he.2.1.symm, by decide⟩, fun h => absurd rfl h⟩

/-- A failing `close` on WASI: the guest gets 4294967295, which is no failure. -/
theorem close_not_visible :
    svcCall (.wasi ⟨32⟩ .sample) (closing 3 9) = .ok (⟨⟩, closed 3 9) ∧
      Forwards (.wasi ⟨32⟩ .sample) (closing 3 9) (closed 3 9) ∧
      (closed 3 9).cpu.qword X0 = 0xffffffff ∧
      ¬ (closing 3 9).reply.Visible ((closed 3 9).cpu.qword X0) := by
  refine ⟨svcCall_closing _ 3 9, forwards_closing _ 3 9, by decide, fun h => ?_⟩
  obtain ⟨-, -, hle⟩ := h.1 9 ⟨rfl, rfl, by decide, by decide⟩
  exact absurd hle (by decide)

end Elfconv
