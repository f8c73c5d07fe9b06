/-
Elfconv/Runtime/OpenFlags.lean

The open flags of `openat` on WASI.

`SVCWasiCall` translates the flags in `X2_D` in place, one flag after the other.  The constant
`LINUX_O_RDONLY` is zero, so the test for it never fails and the host's `O_RDONLY` is set for
every access mode.
-/
import Elfconv.Lib.FlagWord
import Elfconv.Runtime.SvcCall

namespace Elfconv

open Frame Svc FlagWord

/-! ### What is passed to the host -/

/-- The flags that are translated, in the order of the tests. -/
def WasiFcntl.openRewrites (k : WasiFcntl) : List (Rewrite 32) :=
  [⟨LINUX_O_RDONLY, k.O_RDONLY⟩, ⟨LINUX_O_RDWR, k.O_RDWR⟩, ⟨LINUX_O_WRONLY, k.O_WRONLY⟩,
    ⟨LINUX_O_CREAT, k.O_CREAT⟩]

/-- The call returns and its first host call is `openat` with these flags. -/
def PassesFlags (t : Target) (w : World) (flags : BitVec 32) : Prop :=
  ∃ w' dirfd filepath mode rest, svcCall t w = .ok (⟨⟩, w') ∧
    w'.calls = w.calls ++ ⟨.openat, [dirfd, filepath, arg32 flags, mode]⟩ :: rest

/-- Before the host is called only the descriptor and the flags change. -/
structure Prepared (w w' : World) (flags : BitVec 32) : Prop where
  flags : w'.cpu.dword X2 = flags
  path : w'.cpu.qword X1 = w.cpu.qword X1
  rm : w'.rm = w.rm
  calls : w'.calls = w.calls

/-- Two preparations one after the other. -/
theorem Prepared.trans {w w₁ w₂ : World} {f g : BitVec 32} (h : Prepared w w₁ f)
    (h' : Prepared w₁ w₂ g) : Prepared w w₂ g :=
  ⟨h'.flags, h'.path.trans h.path, h'.rm.trans h.rm, h'.calls.trans h.calls⟩

/-- One translation is one pair on `X2_D`. -/
theorem translateFlag_run (linux host : BitVec 32) (w : World) :
    ∃ w', translateFlag linux host w = .ok (⟨⟩, w') ∧
      Prepared w w' ((Rewrite.mk linux host).apply (w.cpu.dword X2)) := by
  have hrun : translateFlag linux host w =
      (if w.cpu.dword X2 &&& linux = linux then setD X2 (w.cpu.dword X2 &&& ~~~linux ||| host)
        else pure ⟨⟩ : Svc PUnit) w := rfl
  by_cases h : Has (w.cpu.dword X2) linux
  · have happly : (Rewrite.mk linux host).apply (w.cpu.dword X2) =
        w.cpu.dword X2 &&& ~~~linux ||| host := if_pos h
    rw [hrun, if_pos (show _ = _ from h), happly]
    exact ⟨_, rfl, State.dword_setDword _ _ _, State.gpr_setDword_of_ne _ _ (by decide), rfl, rfl⟩
  · have happly : (Rewrite.mk linux host).apply (w.cpu.dword X2) = w.cpu.dword X2 := if_neg h
    rw [hrun, if_neg (show ¬ _ = _ from h), happly]
    exact ⟨w, rfl, rfl, rfl, rfl, rfl⟩

theorem wasiDirfd_run (k : WasiFcntl) (w : World) :
    ∃ w', wasiDirfd k w = .ok (⟨⟩, w') ∧ Prepared w w' (w.cpu.dword X2) := by
  have hrun : wasiDirfd k w = (if w.cpu.dword X0 = LINUX_AD_FDCWD then
      setQ X0 (k.AT_FDCWD.signExtend 64) else pure ⟨⟩ : Svc PUnit) w := rfl
  rw [hrun]
  split
  · refine ⟨_, rfl, ?_, State.gpr_setQword_of_ne _ _ (by decide), rfl, rfl⟩
    exact congrArg (BitVec.setWidth 32) (State.gpr_setQword_of_ne _ _ (by decide))
  · exact ⟨w, rfl, rfl, rfl, rfl, rfl⟩

/-- The part of `openat` after the flags have been translated. -/
theorem passOpenat_run {w : World} (hpath : ∃ p, w.rm.translateVMA (w.cpu.qword X1) = some p) :
    ∃ w' dirfd filepath mode rest,
      (do
        retD .openat [arg32 (← getD X0), ← translateVMA (← getQ X1), arg32 (← getD X2),
          arg32 (← getD X3)]
        perrorIf ((← getD X0) == -1) : Svc PUnit) w = .ok (⟨⟩, w') ∧
      w'.calls = w.calls ++ ⟨.openat, [dirfd, filepath, arg32 (w.cpu.dword X2), mode]⟩ :: rest := by
  obtain ⟨p, hp⟩ := hpath
  have htranslate : translateVMA (w.cpu.qword X1) w = .ok (p, w) :=
    (translateVMA_ok w w).mpr ⟨hp, rfl⟩
  have hret : ∀ (fn : HostFn) (args : List (BitVec 64)), retD fn args w = .ok (⟨⟩,
      { w.called fn args with cpu := w.cpu.setDword X0 (w.reply.ret.setWidth 32) }) :=
    fun _ _ => rfl
  simp only [bind_run (getD_run w _), bind_run (getQ_run w _), bind_run htranslate,
    bind_run (hret _ _), bind_run (getD_run _ X0)]
  cases State.dword _ X0 == -1 with
  | false => exact ⟨_, _, _, _, [], rfl, rfl⟩
  | true => exact ⟨_, _, _, _, [⟨.perror, []⟩], rfl, List.append_assoc _ [_] [_]⟩

/-- The host gets the flags as the four translations leave them. -/
theorem wasiOpenat_run {k : WasiFcntl} {w : World}
    (hpath : ∃ p, w.rm.translateVMA (w.cpu.qword X1) = some p) :
    ∃ w' dirfd filepath mode rest, wasiOpenat k w = .ok (⟨⟩, w') ∧
      w'.calls = w.calls ++ ⟨.openat, [dirfd, filepath,
        arg32 (rewriteAll k.openRewrites (w.cpu.dword X2)), mode]⟩ :: rest := by
  obtain ⟨w₀, h₀, p₀⟩ := wasiDirfd_run k w
  obtain ⟨w₁, h₁, p₁⟩ := translateFlag_run LINUX_O_RDONLY k.O_RDONLY w₀
  obtain ⟨w₂, h₂, p₂⟩ := translateFlag_run LINUX_O_RDWR k.O_RDWR w₁
  obtain ⟨w₃, h₃, p₃⟩ := translateFlag_run LINUX_O_WRONLY k.O_WRONLY w₂
  obtain ⟨w₄, h₄, p₄⟩ := translateFlag_run LINUX_O_CREAT k.O_CREAT w₃
  unfold wasiOpenat
  rw [bind_run h₀, bind_run h₁, bind_run h₂, bind_run h₃, bind_run h₄]
  have hprep := p₀.trans (p₁.trans (p₂.trans (p₃.trans p₄)))
  rw [p₃.flags, p₂.flags, p₁.flags, p₀.flags] at hprep
  obtain ⟨w', dirfd, filepath, mode, rest, hrun, hcalls⟩ :=
    passOpenat_run (w := w₄) (by rw [hprep.rm, hprep.path]; exact hpath)
  refine ⟨w', dirfd, filepath, mode, rest, hrun, ?_⟩
  rw [hcalls, hprep.calls, hprep.flags]
  rfl

/-- **The flags that are passed**: those in `X2_D`, translated. -/
theorem passesFlags_openat {m : DataModel} {k : WasiFcntl} {w : World}
    (hn : w.cpu.qword SYSNUMREG = AARCH64_SYS_OPENAT)
    (hpath : ∃ p, w.rm.translateVMA (w.cpu.qword X1) = some p) (flags : BitVec 32) :
    PassesFlags (.wasi m k) w flags ↔ flags = rewriteAll k.openRewrites (w.cpu.dword X2) := by
  have hfall : w.cpu.qword SYSNUMREG ∉ (Target.wasi m k).fallThrough := by
    rw [hn]
    exact fun h => absurd (fallThrough_subset _ h) (by decide)
  have hcall : svcCall (.wasi m k) w = wasiOpenat k { w with errno := 0 } := by
    rw [svcCall_eq_handler hfall, hn]
    rfl
  -- the run is determined, so there is one `openat` to look at
  obtain ⟨w', dirfd, filepath, mode, rest, hrun, hcalls⟩ :=
    wasiOpenat_run (k := k) (w := { w with errno := 0 }) hpath
  rw [← hcall] at hrun
  constructor
  · rintro ⟨w'', dirfd', filepath', mode', rest', hrun', hcalls'⟩
    have hsame : w'' = w' := by
      rw [hrun] at hrun'
      cases hrun'
      rfl
    rw [hsame, hcalls] at hcalls'
    have hargs := congrArg HostCall.args (List.cons.inj (List.append_cancel_left hcalls')).1
    have hflags := (List.cons.inj (List.cons.inj (List.cons.inj hargs).2).2).1
    have hlow := congrArg (BitVec.setWidth 32) hflags
    rw [arg32, arg32, BitVec.setWidth_setWidth_of_le _ (by decide), BitVec.setWidth_eq,
      BitVec.setWidth_setWidth_of_le _ (by decide), BitVec.setWidth_eq] at hlow
    exact hlow.symm
  · rintro rfl
    exact ⟨w', dirfd, filepath, mode, rest, hrun, hcalls⟩

/-! ### What should be passed -/

/-- The host's access mode for that of Linux.  To the fourth value of Linux no mode of the host
corresponds. -/
def WasiFcntl.accessMode (k : WasiFcntl) (flags : BitVec 32) : Option (BitVec 32) :=
  if flags &&& 3 = LINUX_O_RDONLY then some k.O_RDONLY
  else if flags &&& 3 = LINUX_O_WRONLY then some k.O_WRONLY
  else if flags &&& 3 = LINUX_O_RDWR then some k.O_RDWR
  else none

/-- The bits of the host's access modes. -/
def WasiFcntl.O_ACCMODE (k : WasiFcntl) : BitVec 32 := k.O_RDONLY ||| k.O_WRONLY ||| k.O_RDWR

/-- The host's `O_CREAT`, if it is asked for. -/
def WasiFcntl.creat (k : WasiFcntl) (flags : BitVec 32) : BitVec 32 :=
  if Has flags LINUX_O_CREAT then k.O_CREAT else 0#32

/-- The flags that there is no translation for. -/
def untranslated (flags : BitVec 32) : BitVec 32 := flags &&& ~~~(3 ||| LINUX_O_CREAT)

/-- **The flags are translated bit for bit.**  `others` are the bits of the host that the flags
without a translation ask for. -/
structure FlagsTranslated (k : WasiFcntl) (others : BitVec 32 → BitVec 32)
    (linux flags : BitVec 32) : Prop where
  access : some (flags &&& k.O_ACCMODE) = k.accessMode linux
  creat : Has flags k.O_CREAT ↔ Has linux LINUX_O_CREAT
  asked : ∃ mode ∈ k.accessMode linux,
    Has (mode ||| k.creat linux ||| others (untranslated linux)) flags

/-- What `openat` passes is the translation of `X2_D`, and no bit is translated twice. -/
def OpenatTranslates (m : DataModel) (k : WasiFcntl) (others : BitVec 32 → BitVec 32)
    (w : World) : Prop :=
  (∃ flags, PassesFlags (.wasi m k) w flags ∧ FlagsTranslated k others (w.cpu.dword X2) flags) ∧
    NeverRetested k.openRewrites (w.cpu.dword X2) 0#32

/-- The host's `O_RDONLY` is part of the access mode, no host value has the bit of a later test,
and neither the flags without a translation nor `O_CREAT` change what is passed of the others. -/
structure Translatable (k : WasiFcntl) (others : BitVec 32 → BitVec 32) (linux mode : BitVec 32) :
    Prop where
  access : k.accessMode linux = some mode
  rdonly : Has mode k.O_RDONLY
  rdonly_apart : Apart k.O_RDONLY 3
  rdwr_apart : linux &&& 3 = LINUX_O_RDWR → Apart k.O_RDWR LINUX_O_WRONLY
  mode_apart : Apart mode LINUX_O_CREAT
  rest_mode : Has mode ((untranslated linux ||| k.creat linux) &&& k.O_ACCMODE)
  rest_creat : ¬ Has linux LINUX_O_CREAT → ¬ Has (untranslated linux ||| mode) k.O_CREAT
  rest_asked : Has (mode ||| k.creat linux ||| others (untranslated linux)) (untranslated linux)

/-! ### The access modes -/

section Modes

variable {k : WasiFcntl} {others : BitVec 32 → BitVec 32} {linux mode : BitVec 32}

/-- A mask that has a flag does not hide it. -/
theorem has_and_mask {f mask s : BitVec 32} (h : mask &&& s = s) :
    Has (f &&& mask) s ↔ Has f s := by
  unfold Has
  rw [BitVec.and_assoc, h]

theorem accessMode_cases (h : k.accessMode linux = some mode) :
    (linux &&& 3 = LINUX_O_RDONLY ∧ mode = k.O_RDONLY) ∨
      (linux &&& 3 = LINUX_O_WRONLY ∧ mode = k.O_WRONLY) ∨
      (linux &&& 3 = LINUX_O_RDWR ∧ mode = k.O_RDWR) := by
  unfold WasiFcntl.accessMode at h
  split at h
  · rename_i hm
    exact .inl ⟨hm, (Option.some.inj h).symm⟩
  · split at h
    · rename_i hm
      exact .inr (.inl ⟨hm, (Option.some.inj h).symm⟩)
    · split at h
      · rename_i hm
        exact .inr (.inr ⟨hm, (Option.some.inj h).symm⟩)
      · cases h

/-- The tests of an access mode. -/
theorem has_modes (c : BitVec 32) (h : linux &&& 3 = c) :
    (Has linux LINUX_O_RDWR ↔ Has c LINUX_O_RDWR) ∧
      (Has linux LINUX_O_WRONLY ↔ Has c LINUX_O_WRONLY) := by
  rw [← h]
  exact ⟨(has_and_mask (by decide)).symm, (has_and_mask (by decide)).symm⟩

/-- The flags that are translated have no bit in common. -/
theorem sourcesApart_openRewrites (k : WasiFcntl) : SourcesApart k.openRewrites := by
  unfold SourcesApart WasiFcntl.openRewrites
  simp only [List.pairwise_cons, List.mem_cons, List.not_mem_nil, or_false, forall_eq_or_imp,
    forall_eq, false_imp_iff, implies_true, List.Pairwise.nil, and_true]
  decide

theorem and_creat (linux : BitVec 32) :
    linux &&& LINUX_O_CREAT = if Has linux LINUX_O_CREAT then LINUX_O_CREAT else 0#32 := by
  split
  · rename_i h
    exact h
  · rename_i h
    have hbit : LINUX_O_CREAT = BitVec.twoPow 32 6 := by decide
    unfold Has at h
    rw [hbit, BitVec.and_twoPow] at h ⊢
    split at h
    · exact absurd rfl h
    · rename_i hoff
      rw [if_neg hoff]

/-- The constant of read-only is zero: every word has it. -/
theorem has_rdonly (f : BitVec 32) : Has f LINUX_O_RDONLY := has_zero

/-- The flags that the host is to get for those that are translated. -/
theorem asked_eq (h : k.accessMode linux = some mode) :
    FlagWord.asked k.openRewrites linux = k.O_RDONLY ||| mode ||| k.creat linux := by
  show (if Has linux LINUX_O_RDONLY then k.O_RDONLY else 0#32) |||
    ((if Has linux LINUX_O_RDWR then k.O_RDWR else 0#32) |||
      ((if Has linux LINUX_O_WRONLY then k.O_WRONLY else 0#32) ||| (k.creat linux ||| 0#32))) = _
  rw [if_pos (has_rdonly linux), BitVec.or_zero]
  rcases accessMode_cases h with ⟨hc, rfl⟩ | ⟨hc, rfl⟩ | ⟨hc, rfl⟩
  all_goals
    obtain ⟨hrdwr, hwronly⟩ := has_modes _ hc
    simp only [hrdwr, hwronly]
  · rw [if_neg (by decide), if_neg (by decide), BitVec.or_self]
    simp only [BitVec.zero_or]
  · rw [if_neg (by decide), if_pos (by decide), BitVec.or_assoc]
    simp only [BitVec.zero_or]
  · rw [if_pos (by decide), if_neg (by decide), BitVec.or_assoc]
    simp only [BitVec.zero_or]

/-- The bits of the guest that no translation takes away. -/
theorem found_eq (h : k.accessMode linux = some mode) :
    linux &&& ~~~found k.openRewrites linux = untranslated linux := by
  have hfound : found k.openRewrites linux = linux &&& (3 ||| LINUX_O_CREAT) := by
    rw [BitVec.and_or_distrib_left, and_creat]
    show (if Has linux LINUX_O_RDONLY then LINUX_O_RDONLY else 0#32) |||
      ((if Has linux LINUX_O_RDWR then LINUX_O_RDWR else 0#32) |||
        ((if Has linux LINUX_O_WRONLY then LINUX_O_WRONLY else 0#32) |||
          ((if Has linux LINUX_O_CREAT then LINUX_O_CREAT else 0#32) ||| 0#32))) = _
    rw [if_pos (has_rdonly linux), BitVec.or_zero]
    generalize (if Has linux LINUX_O_CREAT then LINUX_O_CREAT else 0#32) = creat
    -- the three modes, each with the rewrites that find it
    rcases accessMode_cases h with ⟨hc, rfl⟩ | ⟨hc, rfl⟩ | ⟨hc, rfl⟩
    all_goals
      obtain ⟨hrdwr, hwronly⟩ := has_modes _ hc
      rw [hc]
      simp only [hrdwr, hwronly]
    · rw [if_neg (by decide), if_neg (by decide), BitVec.zero_or, BitVec.zero_or]
    · rw [if_neg (by decide), if_pos (by decide), BitVec.zero_or]
      exact BitVec.zero_or
    · rw [if_pos (by decide), if_neg (by decide), BitVec.zero_or]
      exact BitVec.zero_or
  rw [hfound]
  unfold untranslated
  apply BitVec.eq_of_getLsbD_eq
  intro i hi
  simp only [BitVec.getLsbD_and, BitVec.getLsbD_not, hi, decide_true, Bool.true_and]
  cases linux.getLsbD i <;> rfl

/-- The host's flags are not taken for flags of the guest by a later test. -/
theorem targetsApart_iff (h : k.accessMode linux = some mode) :
    TargetsApart linux 0#32 k.openRewrites ↔ Apart k.O_RDONLY 3 ∧
      (linux &&& 3 = LINUX_O_RDWR → Apart k.O_RDWR LINUX_O_WRONLY) ∧
      Apart (k.O_RDONLY ||| mode) LINUX_O_CREAT := by
  have hthree : Apart k.O_RDONLY 3 ↔
      Apart k.O_RDONLY LINUX_O_RDWR ∧ Apart k.O_RDONLY LINUX_O_WRONLY := by
    have hbits : (3 : BitVec 32) = LINUX_O_RDWR ||| LINUX_O_WRONLY := by decide
    rw [hbits, apart_comm, apart_or_left, apart_comm, apart_comm (s := k.O_RDONLY)]
  have hzero : ∀ s : BitVec 32, Apart 0#32 s := fun s => BitVec.zero_and
  rw [hthree]
  simp only [WasiFcntl.openRewrites, TargetsApart, if_pos (has_rdonly linux), and_true,
    BitVec.zero_or, hzero, true_and]
  rcases accessMode_cases h with ⟨hc, rfl⟩ | ⟨hc, rfl⟩ | ⟨hc, rfl⟩
  all_goals
    obtain ⟨hrdwr, hwronly⟩ := has_modes _ hc
    simp only [hrdwr, hwronly, hc]
  · have hne : ¬ LINUX_O_RDONLY = LINUX_O_RDWR := by decide
    rw [if_neg (by decide), if_neg (by decide), BitVec.or_self]
    simp only [hne, false_imp_iff, true_and, and_assoc]
  · have hne : ¬ LINUX_O_WRONLY = LINUX_O_RDWR := by decide
    rw [if_neg (by decide), if_pos (by decide)]
    simp only [hne, false_imp_iff, true_and, and_assoc]
  · rw [if_pos (by decide), if_neg (by decide), apart_or_left]
    simp only [forall_const, and_assoc]

theorem accMode_has (h : k.accessMode linux = some mode) : Has k.O_ACCMODE mode := by
  unfold WasiFcntl.O_ACCMODE
  rcases accessMode_cases h with ⟨-, rfl⟩ | ⟨-, rfl⟩ | ⟨-, rfl⟩
  · exact has_or_of_left (has_or_of_left (.refl _))
  · exact has_or_of_left (has_or_of_right (.refl _))
  · exact has_or_of_right (.refl _)

theorem has_creat_iff (linux : BitVec 32) :
    Has (untranslated linux ||| (mode ||| k.creat linux)) k.O_CREAT ∨
      ¬ Has linux LINUX_O_CREAT := by
  by_cases h : Has linux LINUX_O_CREAT
  · rw [WasiFcntl.creat, if_pos h]
    exact .inl (has_or_of_right (has_or_of_right (.refl _)))
  · exact .inr h

/-- When what is passed is the translation. -/
theorem flagsTranslated_iff (h : k.accessMode linux = some mode) :
    FlagsTranslated k others linux (untranslated linux ||| (mode ||| k.creat linux)) ↔
      Has mode ((untranslated linux ||| k.creat linux) &&& k.O_ACCMODE) ∧
        (¬ Has linux LINUX_O_CREAT → ¬ Has (untranslated linux ||| mode) k.O_CREAT) ∧
        Has (mode ||| k.creat linux ||| others (untranslated linux)) (untranslated linux) := by
  have hflags : untranslated linux ||| (mode ||| k.creat linux) =
      untranslated linux ||| k.creat linux ||| mode := by
    rw [BitVec.or_comm mode, BitVec.or_assoc]
  -- each field of the specification is one of the three conditions
  have haccess : some ((untranslated linux ||| (mode ||| k.creat linux)) &&& k.O_ACCMODE) =
      k.accessMode linux ↔ Has mode ((untranslated linux ||| k.creat linux) &&& k.O_ACCMODE) := by
    rw [h, Option.some_inj, hflags]
    exact or_and_eq_iff (accMode_has h)
  have hcreat : (Has (untranslated linux ||| (mode ||| k.creat linux)) k.O_CREAT ↔
      Has linux LINUX_O_CREAT) ↔
        (¬ Has linux LINUX_O_CREAT → ¬ Has (untranslated linux ||| mode) k.O_CREAT) := by
    by_cases hc : Has linux LINUX_O_CREAT
    · have hhas : Has (untranslated linux ||| (mode ||| k.creat linux)) k.O_CREAT :=
        (has_creat_iff linux).resolve_right (not_not_intro hc)
      simp only [hc, hhas, not_true_eq_false, false_imp_iff]
    · have hnone : k.creat linux = 0#32 := if_neg hc
      rw [hnone, BitVec.or_zero]
      simp only [hc, iff_false, not_false_eq_true, forall_const]
  have hasked : (∃ mode' ∈ k.accessMode linux,
      Has (mode' ||| k.creat linux ||| others (untranslated linux))
        (untranslated linux ||| (mode ||| k.creat linux))) ↔
        Has (mode ||| k.creat linux ||| others (untranslated linux)) (untranslated linux) := by
    rw [h]
    simp only [Option.mem_def, Option.some_inj, exists_eq_left']
    rw [has_or_right]
    apply and_iff_left
    exact has_or_of_left (.refl _)
  constructor
  · intro ht
    exact ⟨haccess.mp ht.access, hcreat.mp ht.creat, hasked.mp ht.asked⟩
  · rintro ⟨h₁, h₂, h₃⟩
    exact ⟨haccess.mpr h₁, hcreat.mpr h₂, hasked.mpr h₃⟩

/-- What is passed, and when no bit is tested twice. -/
theorem rewriteAll_openRewrites (h : k.accessMode linux = some mode)
    (hnever : NeverRetested k.openRewrites linux 0#32) :
    rewriteAll k.openRewrites linux =
      untranslated linux ||| (k.O_RDONLY ||| mode ||| k.creat linux) := by
  rw [rewriteAll_eq (sourcesApart_openRewrites k) hnever, asked_eq h, found_eq h]

theorem translates_iff :
    (FlagsTranslated k others linux (rewriteAll k.openRewrites linux) ∧
      NeverRetested k.openRewrites linux 0#32) ↔ ∃ mode, Translatable k others linux mode := by
  have hnever := neverRetested_iff (f := linux) (sourcesApart_openRewrites k)
  constructor
  · rintro ⟨ht, hn⟩
    obtain ⟨mode, h⟩ : ∃ mode, k.accessMode linux = some mode := ⟨_, ht.access.symm⟩
    have hflags := rewriteAll_openRewrites h hn
    rw [hnever, targetsApart_iff h, apart_or_left] at hn
    -- the mode that is passed contains `O_RDONLY`
    have hr : Has mode k.O_RDONLY := by
      have hmode := ht.access
      rw [h, Option.some_inj, hflags] at hmode
      rw [← hmode]
      apply Has.and
      · exact has_or_of_right (has_or_of_left (has_or_of_left (.refl _)))
      · exact has_or_of_left (has_or_of_left (.refl _))
    rw [hflags, hr.or_eq, flagsTranslated_iff h] at ht
    exact ⟨mode, h, hr, hn.1, hn.2.1, hn.2.2.2, ht.1, ht.2.1, ht.2.2⟩
  · rintro ⟨mode, h⟩
    have hn : NeverRetested k.openRewrites linux 0#32 := by
      rw [hnever, targetsApart_iff h.access, h.rdonly.or_eq]
      exact ⟨h.rdonly_apart, h.rdwr_apart, h.mode_apart⟩
    refine ⟨?_, hn⟩
    rw [rewriteAll_openRewrites h.access hn, h.rdonly.or_eq, flagsTranslated_iff h.access]
    exact ⟨h.rest_mode, h.rest_creat, h.rest_asked⟩

end Modes

/-! ### The exact condition -/

/-- **WASI translates the flags of `openat` exactly when the host's `O_RDONLY` and what is not
translated do not show in the other flags.** -/
theorem openatTranslates_iff {m : DataModel} {k : WasiFcntl} {w : World}
    (hn : w.cpu.qword SYSNUMREG = AARCH64_SYS_OPENAT)
    (hpath : ∃ p, w.rm.translateVMA (w.cpu.qword X1) = some p) (others : BitVec 32 → BitVec 32) :
    OpenatTranslates m k others w ↔ ∃ mode, Translatable k others (w.cpu.dword X2) mode := by
  rw [← translates_iff]
  unfold OpenatTranslates
  simp only [passesFlags_openat hn hpath, exists_eq_left]

/-- `openat` with `O_CREAT` for reading. -/
theorem openatTranslates_creat :
    OpenatTranslates ⟨32⟩ .sample id (.sample (callRegs 56 3 64) 7) := by
  refine (openatTranslates_iff rfl ⟨_, rfl⟩ id).mpr ⟨_, rfl, ?_, ?_, ?_, ?_, ?_, ?_, ?_⟩
  all_goals decide

/-- `openat` for writing: WASI is asked for reading and writing. -/
theorem not_openatTranslates_wronly :
    ¬ OpenatTranslates ⟨32⟩ .sample id (.sample (callRegs 56 3 1) 7) := by
  rintro ⟨⟨flags, hpasses, htranslated⟩, hnever⟩
  obtain rfl := (passesFlags_openat rfl ⟨_, rfl⟩ flags).mp hpasses
  obtain ⟨mode, h⟩ := translates_iff.mp ⟨htranslated, hnever⟩
  have hmode : some WasiFcntl.sample.O_WRONLY = some mode := h.access
  have hrdonly := h.rdonly
  rw [← Option.some.inj hmode] at hrdonly
  exact absurd hrdonly (by decide)

end Elfconv
