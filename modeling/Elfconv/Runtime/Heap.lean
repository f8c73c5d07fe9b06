/-
Elfconv/Runtime/Heap.lean

The guest heap over sequences of `brk`, `mmap` and `munmap`.

A traced state is a world together with what the guest has been told so far: the ranges
that `mmap` returned and the last break that `brk` reported.  Between two of the calls the
guest may change everything but the areas; the other system calls do not touch them
either (`svcCall_rm`).

Forgetting the world turns a traced state into an `Arena`: while the cursor does not run
off the end, `mmap` is `Arena.alloc` and `brk` is `Arena.setBreak`.  `mmap` checks nothing of
this, so the heap is sound exactly along the runs whose steps are harmless
(`heapSound_iff`).
-/
import Elfconv.Lib.Arena
import Elfconv.Lib.Run
import Elfconv.Runtime.SvcCall

namespace Elfconv

open Frame Svc Run

/-! ### The three handlers -/

section Handlers

variable {t : Target} {w w' : World}

/-- An `mmap` that returns hands out the cursor and moves it by the length. -/
theorem sysMmap_ok (h : sysMmap w = .ok (⟨⟩, w')) :
    w' = { w with
      cpu := w.cpu.setQword X0 w.rm.heap_memory.heap_cur
      rm.heap_memory.heap_cur := w.rm.heap_memory.heap_cur + w.cpu.qword X1 } := by
  simp only [sysMmap, bind_ok_iff, getHeap_run] at h
  obtain ⟨_, _, e, _, _, e₄, h⟩ := h
  cases e
  cases e₄
  split at h
  · cases h
  obtain ⟨_, _, e₅, h⟩ := bind_ok h
  cases e₅
  split at h
  · cases h
  obtain ⟨_, _, e₀, h⟩ := bind_ok h
  cases e₀
  split at h
  · cases h
    rfl
  · cases h

/-- A `brk` that returns either reports the cursor or moves it. -/
theorem sysBrk_ok (h : sysBrk w = .ok (⟨⟩, w')) :
    w.cpu.qword X0 = 0 ∧
      w' = { w with cpu := w.cpu.setQword X0 w.rm.heap_memory.heap_cur } ∨
    w.cpu.qword X0 ≠ 0 ∧
      (w.rm.heap_memory.vma ≤ w.cpu.qword X0 ∧
        w.cpu.qword X0 < w.rm.heap_memory.vma + w.rm.heap_memory.len) ∧
      w' = { w with rm.heap_memory.heap_cur := w.cpu.qword X0 } := by
  simp only [sysBrk, bind_ok_iff, getHeap_run, getQ_run] at h
  obtain ⟨_, _, e, _, _, e₀, h⟩ := h
  cases e
  cases e₀
  split at h
  · rename_i h0
    cases h
    exact .inl ⟨h0, rfl⟩
  · rename_i h0
    split at h
    · rename_i hin
      cases h
      exact .inr ⟨h0, hin, rfl⟩
    · cases h

/-- `mmap` of an anonymous mapping, at an address of its choice, goes through. -/
theorem sysMmap_anonymous (h4 : w.cpu.dword X4 = -1) (h5 : w.cpu.dword X5 = 0)
    (h0 : w.cpu.qword X0 = 0) :
    sysMmap w = .ok (⟨⟩, { w with
      cpu := w.cpu.setQword X0 w.rm.heap_memory.heap_cur
      rm.heap_memory.heap_cur := w.rm.heap_memory.heap_cur + w.cpu.qword X1 }) := by
  simp [sysMmap, bind, StateT.bind, Except.bind, h4, h5, h0]
  rfl

/-- A new break within the heap goes through. -/
theorem sysBrk_within (h0 : w.cpu.qword X0 ≠ 0)
    (hin : w.rm.heap_memory.vma ≤ w.cpu.qword X0 ∧
      w.cpu.qword X0 < w.rm.heap_memory.vma + w.rm.heap_memory.len) :
    sysBrk w = .ok (⟨⟩, { w with rm.heap_memory.heap_cur := w.cpu.qword X0 }) := by
  simp only [sysBrk, bind, StateT.bind, Except.bind, getHeap_run, getQ_run]
  rw [if_neg h0, if_pos hin]
  rfl

/-- Outside `brk` and `mmap` the areas stay as they are. -/
theorem svcCall_rm (hfall : w.cpu.qword SYSNUMREG ∉ t.fallThrough)
    (hheap : (footprint t (w.cpu.qword SYSNUMREG)).heap = false)
    (h : svcCall t w = .ok (⟨⟩, w')) : w'.rm = w.rm :=
  (keeps_svcCall hfall h).rm hheap

theorem svcCall_mmap (hn : w.cpu.qword SYSNUMREG = AARCH64_SYS_MMAP) :
    svcCall t w = sysMmap { w with errno := 0 } := by
  rw [svcCall_eq_handler (by rw [hn]; exact commonSyscalls_not_fallThrough (by decide)), hn]
  cases t <;> rfl

theorem svcCall_brk (hn : w.cpu.qword SYSNUMREG = AARCH64_SYS_BRK) :
    svcCall t w = sysBrk { w with errno := 0 } := by
  rw [svcCall_eq_handler (by rw [hn]; exact commonSyscalls_not_fallThrough (by decide)), hn]
  cases t <;> rfl

theorem svcCall_munmap (hn : w.cpu.qword SYSNUMREG = AARCH64_SYS_MUNMAP) :
    svcCall t w = sysMunmap { w with errno := 0 } := by
  rw [svcCall_eq_handler (by rw [hn]; exact commonSyscalls_not_fallThrough (by decide)), hn]
  cases t <;> rfl

end Handlers

/-! ### Traced runs -/

/-- A world, the ranges `mmap` returned so far, and the last break reported. -/
structure Traced where
  world : World
  ranges : List (Nat × Nat)
  brk : Option Nat

namespace Traced

/-- A fresh heap: nothing mapped, no break reported. -/
def init (w : World) : Traced := ⟨w, [], none⟩

/-- What the guest learns from a call that leads from `w₁` to `w₂`. -/
def record (s : Traced) (w₁ w₂ : World) : Traced :=
  if w₁.cpu.qword SYSNUMREG = AARCH64_SYS_MMAP then
    ⟨w₂, ((w₂.cpu.qword X0).toNat, (w₁.cpu.qword X1).toNat) :: s.ranges, s.brk⟩
  else if w₁.cpu.qword SYSNUMREG = AARCH64_SYS_BRK then
    ⟨w₂, s.ranges, some (w₂.cpu.qword X0).toNat⟩
  else
    ⟨w₂, s.ranges, s.brk⟩

/-- The heap of the history, as an arena: its cursor, the mapped ranges and the break. -/
def arena (s : Traced) : Arena :=
  ⟨s.world.rm.heap_memory.heap_cur.toNat, s.ranges, s.brk⟩

end Traced

/-- The system calls about the heap. -/
def heapSyscalls : List (BitVec 64) := [AARCH64_SYS_BRK, AARCH64_SYS_MUNMAP, AARCH64_SYS_MMAP]

/-- The guest goes on to `w₁`, where it makes one of the three calls, which returns. -/
def heapStep (t : Target) (s : Traced) (w₁ : World) (s' : Traced) : Prop :=
  w₁.rm = s.world.rm ∧ w₁.cpu.qword SYSNUMREG ∈ heapSyscalls ∧
    ∃ w₂, svcCall t w₁ = .ok (⟨⟩, w₂) ∧ s' = s.record w₁ w₂

/-- `AT_PAGESZ`, as the guest is told in its auxiliary vector. -/
def AT_PAGESZ : Nat := 4096

/-- The bounds of the heap area. -/
def heapLo : Nat := HEAPS_START_VMA.toNat

/-- The end of the heap area. -/
def heapHi : Nat := heapLo + HEAP_UNIT_SIZE.toNat

/-- What was mapped starts aligned and lies in the area, apart, and above the break. -/
def HeapSound (s : Traced) : Prop := s.arena.Sound heapLo heapHi AT_PAGESZ

/-- The condition on a call made in `w₁`: `mmap` starts at an aligned cursor, ends below the
end of the heap, and goes into free space; `brk` reports or sets a break below which
nothing is mapped. -/
def HeapOk (s : Traced) (w₁ : World) : Prop :=
  if w₁.cpu.qword SYSNUMREG = AARCH64_SYS_MMAP then
    s.arena.AllocOk heapHi AT_PAGESZ (w₁.cpu.qword X1).toNat
  else if w₁.cpu.qword SYSNUMREG = AARCH64_SYS_BRK then
    s.arena.BreakOk (if w₁.cpu.qword X0 = 0 then s.arena.cur else (w₁.cpu.qword X0).toNat)
  else
    True

/-- The bounds of the heap are those of `VMAHeapEntryInit`, and its cursor is placed
between the ranges. -/
structure HeapInv (s : Traced) : Prop where
  vma : s.world.rm.heap_memory.vma = HEAPS_START_VMA
  len : s.world.rm.heap_memory.len = HEAP_UNIT_SIZE
  placed : s.arena.Placed

/-! ### One step -/

section Step

variable {t : Target} {s s' : Traced} {w₁ : World}

/-- The areas with the heap cursor at `v`. -/
def RuntimeManager.withCur (rm : RuntimeManager) (v : Addr) : RuntimeManager :=
  { rm with heap_memory.heap_cur := v }

/-- Everything a step can do. -/
theorem heapStep_cases (h : heapStep t s w₁ s') :
    (w₁.cpu.qword SYSNUMREG = AARCH64_SYS_MMAP ∧
      s'.ranges = (s.arena.cur, (w₁.cpu.qword X1).toNat) :: s.ranges ∧ s'.brk = s.brk ∧
      s'.world.rm = s.world.rm.withCur
        (s.world.rm.heap_memory.heap_cur + w₁.cpu.qword X1)) ∨
    (w₁.cpu.qword SYSNUMREG = AARCH64_SYS_BRK ∧ w₁.cpu.qword X0 = 0 ∧
      s'.ranges = s.ranges ∧ s'.brk = some s.arena.cur ∧ s'.world.rm = s.world.rm) ∨
    (w₁.cpu.qword SYSNUMREG = AARCH64_SYS_BRK ∧ w₁.cpu.qword X0 ≠ 0 ∧
      (s.world.rm.heap_memory.vma ≤ w₁.cpu.qword X0 ∧
        w₁.cpu.qword X0 < s.world.rm.heap_memory.vma + s.world.rm.heap_memory.len) ∧
      s'.ranges = s.ranges ∧ s'.brk = some (w₁.cpu.qword X0).toNat ∧
      s'.world.rm = s.world.rm.withCur (w₁.cpu.qword X0)) ∨
    (w₁.cpu.qword SYSNUMREG = AARCH64_SYS_MUNMAP ∧
      s'.ranges = s.ranges ∧ s'.brk = s.brk ∧ s'.world.rm = s.world.rm) := by
  -- only the record is kept of a step: the ranges, the break and the cursor
  obtain ⟨hrm, hn, w₂, hcall, rfl⟩ := h
  simp only [heapSyscalls, List.mem_cons, List.not_mem_nil, or_false] at hn
  rcases hn with hn | hn | hn
  · have hne : w₁.cpu.qword SYSNUMREG ≠ AARCH64_SYS_MMAP := by rw [hn]; decide
    rw [svcCall_brk hn] at hcall
    rcases sysBrk_ok hcall with ⟨h0, rfl⟩ | ⟨h0, hin, rfl⟩
    · refine .inr (.inl ⟨hn, h0, ?_⟩)
      simp only [Traced.record, if_neg hne, if_pos hn]
      exact ⟨trivial, by simp [Traced.arena, hrm], hrm⟩
    · refine .inr (.inr (.inl ⟨hn, h0, by rw [← hrm]; exact hin, ?_⟩))
      simp only [Traced.record, if_neg hne, if_pos hn]
      exact ⟨trivial, trivial, by rw [← hrm]; rfl⟩
  · have hne : w₁.cpu.qword SYSNUMREG ≠ AARCH64_SYS_MMAP := by rw [hn]; decide
    have hne' : w₁.cpu.qword SYSNUMREG ≠ AARCH64_SYS_BRK := by rw [hn]; decide
    rw [svcCall_munmap hn] at hcall
    cases hcall
    refine .inr (.inr (.inr ⟨hn, ?_⟩))
    simp only [Traced.record, if_neg hne, if_neg hne']
    exact ⟨trivial, trivial, hrm⟩
  · rw [svcCall_mmap hn] at hcall
    have hw₂ := sysMmap_ok hcall
    subst hw₂
    refine .inl ⟨hn, ?_⟩
    simp only [Traced.record, if_pos hn]
    exact ⟨by simp [Traced.arena, hrm], trivial, by rw [← hrm]; rfl⟩

/-- `mmap` is the allocation of the arena while the cursor does not run off the end. -/
theorem arena_mmap (hmem : s'.ranges = (s.arena.cur, (w₁.cpu.qword X1).toNat) :: s.ranges)
    (hbrk : s'.brk = s.brk)
    (hrm : s'.world.rm = s.world.rm.withCur
      (s.world.rm.heap_memory.heap_cur + w₁.cpu.qword X1))
    (hfit : s.arena.cur + (w₁.cpu.qword X1).toNat < heapHi) :
    s'.arena = s.arena.alloc (w₁.cpu.qword X1).toNat := by
  have hhi : heapHi < 2 ^ 64 := by decide
  have hcur : (s.world.rm.heap_memory.heap_cur + w₁.cpu.qword X1).toNat =
      s.arena.cur + (w₁.cpu.qword X1).toNat := by
    rw [BitVec.toNat_add]
    exact Nat.mod_eq_of_lt (hfit.trans hhi)
  simp [Traced.arena, Arena.alloc, hmem, hbrk, hrm, RuntimeManager.withCur, hcur]

/-- A sound state after `mmap` shows that the cursor did not run off the end. -/
theorem fits_of_heapSound
    (hmem : s'.ranges = (s.arena.cur, (w₁.cpu.qword X1).toNat) :: s.ranges)
    (hrm : s'.world.rm = s.world.rm.withCur
      (s.world.rm.heap_memory.heap_cur + w₁.cpu.qword X1))
    (h : HeapSound s') : s.arena.cur + (w₁.cpu.qword X1).toNat < heapHi := by
  have hin := (h.inside _ (show (s.arena.cur, (w₁.cpu.qword X1).toNat) ∈ s'.ranges by
    rw [hmem]; exact List.mem_cons_self)).2
  have hcur : s'.arena.cur < heapHi := h.cur_mem.2
  have hhi : heapHi < 2 ^ 64 := by decide
  have hcur' : s'.arena.cur = (s.arena.cur + (w₁.cpu.qword X1).toNat) % 2 ^ 64 := by
    simp only [Traced.arena, hrm, RuntimeManager.withCur, BitVec.toNat_add]
  simp only at hin
  omega

/-- The code's test of a break is that it lies in the area. -/
theorem mem_heap_of_brk (hi : HeapInv s)
    (hin : s.world.rm.heap_memory.vma ≤ w₁.cpu.qword X0 ∧
      w₁.cpu.qword X0 < s.world.rm.heap_memory.vma + s.world.rm.heap_memory.len) :
    (w₁.cpu.qword X0).toNat ∈ Set.Ico heapLo heapHi := by
  rw [hi.vma, hi.len] at hin
  have hend : (HEAPS_START_VMA + HEAP_UNIT_SIZE).toNat = heapHi := by decide
  exact ⟨BitVec.le_def.mp hin.1, hend ▸ BitVec.lt_def.mp hin.2⟩

/-- One step keeps the heap sound exactly when the call is harmless. -/
theorem heapSound_step (hi : HeapInv s) (hs : HeapSound s) (h : heapStep t s w₁ s') :
    HeapSound s' ↔ HeapOk s w₁ := by
  rcases heapStep_cases h with ⟨hn, hmem, hbrk, hrm⟩ | ⟨hn, h0, hmem, hbrk, hrm⟩ |
    ⟨hn, h0, hin, hmem, hbrk, hrm⟩ | ⟨hn, hmem, hbrk, hrm⟩
  · -- `mmap`: a sound state afterwards shows that the range ended within the heap
    rw [HeapOk, if_pos hn]
    constructor
    · intro hs'
      have harena := arena_mmap hmem hbrk hrm (fits_of_heapSound hmem hrm hs')
      exact (Arena.sound_alloc_iff hs hi.placed).mp (harena ▸ hs')
    · intro hok
      have hs' := (Arena.sound_alloc_iff hs hi.placed).mpr hok
      rwa [HeapSound, arena_mmap hmem hbrk hrm hok.fits]
  · have hne : w₁.cpu.qword SYSNUMREG ≠ AARCH64_SYS_MMAP := by rw [hn]; decide
    have harena : s'.arena = s.arena.setBreak s.arena.cur := by
      simp [Traced.arena, Arena.setBreak, hmem, hbrk, hrm]
    rw [HeapOk, if_neg hne, if_pos hn, if_pos h0, HeapSound, harena]
    exact Arena.sound_setBreak_iff hs hs.cur_mem
  · have hne : w₁.cpu.qword SYSNUMREG ≠ AARCH64_SYS_MMAP := by rw [hn]; decide
    have harena : s'.arena = s.arena.setBreak (w₁.cpu.qword X0).toNat := by
      simp [Traced.arena, Arena.setBreak, hmem, hbrk, hrm, RuntimeManager.withCur]
    rw [HeapOk, if_neg hne, if_pos hn, if_neg h0, HeapSound, harena]
    exact Arena.sound_setBreak_iff hs (mem_heap_of_brk hi hin)
  · have hne : w₁.cpu.qword SYSNUMREG ≠ AARCH64_SYS_MMAP := by rw [hn]; decide
    have hne' : w₁.cpu.qword SYSNUMREG ≠ AARCH64_SYS_BRK := by rw [hn]; decide
    have harena : s'.arena = s.arena := by simp [Traced.arena, hmem, hbrk, hrm]
    rw [HeapOk, if_neg hne, if_neg hne', HeapSound, harena]
    exact iff_of_true hs trivial

/-- A harmless step keeps the invariant. -/
theorem heapInv_step (hi : HeapInv s) (hok : HeapOk s w₁) (h : heapStep t s w₁ s') :
    HeapInv s' := by
  rcases heapStep_cases h with ⟨hn, hmem, hbrk, hrm⟩ | ⟨hn, h0, hmem, hbrk, hrm⟩ |
    ⟨hn, h0, hin, hmem, hbrk, hrm⟩ | ⟨hn, hmem, hbrk, hrm⟩
  · rw [HeapOk, if_pos hn] at hok
    refine ⟨by rw [hrm]; exact hi.vma, by rw [hrm]; exact hi.len, ?_⟩
    rw [arena_mmap hmem hbrk hrm hok.fits]
    exact Arena.placed_alloc hi.placed hok
  · have hne : w₁.cpu.qword SYSNUMREG ≠ AARCH64_SYS_MMAP := by rw [hn]; decide
    rw [HeapOk, if_neg hne, if_pos hn, if_pos h0] at hok
    have harena : s'.arena = s.arena.setBreak s.arena.cur := by
      simp [Traced.arena, Arena.setBreak, hmem, hbrk, hrm]
    exact ⟨by rw [hrm]; exact hi.vma, by rw [hrm]; exact hi.len,
      harena ▸ Arena.placed_setBreak hok⟩
  · have hne : w₁.cpu.qword SYSNUMREG ≠ AARCH64_SYS_MMAP := by rw [hn]; decide
    rw [HeapOk, if_neg hne, if_pos hn, if_neg h0] at hok
    have harena : s'.arena = s.arena.setBreak (w₁.cpu.qword X0).toNat := by
      simp [Traced.arena, Arena.setBreak, hmem, hbrk, hrm, RuntimeManager.withCur]
    exact ⟨by rw [hrm]; exact hi.vma, by rw [hrm]; exact hi.len,
      harena ▸ Arena.placed_setBreak hok⟩
  · have harena : s'.arena = s.arena := by simp [Traced.arena, hmem, hbrk, hrm]
    exact ⟨by rw [hrm]; exact hi.vma, by rw [hrm]; exact hi.len, harena ▸ hi.placed⟩

end Step

/-! ### Whole runs -/

section Runs

variable {t : Target} {w : World} {bytes : HostPtr}

/-- Before the first call nothing is mapped. -/
theorem heapInv_init (h : w.rm.heap_memory = .vmaHeapEntryInit bytes) :
    HeapInv (.init w) :=
  ⟨by simp [Traced.init, h, MappedMemory.vmaHeapEntryInit],
    by simp [Traced.init, h, MappedMemory.vmaHeapEntryInit],
    ⟨by simp [Traced.init, Traced.arena], by simp [Traced.init, Traced.arena]⟩⟩

/-- Before the first call the heap is sound. -/
theorem heapSound_init (h : w.rm.heap_memory = .vmaHeapEntryInit bytes) :
    HeapSound (.init w) := by
  refine ⟨?_, by simp [Traced.init, Traced.arena], by simp [Traced.init, Traced.arena],
    by simp [Traced.init, Traced.arena], by simp [Traced.init, Traced.arena]⟩
  simp only [Traced.init, Traced.arena, h, MappedMemory.vmaHeapEntryInit]
  exact ⟨le_rfl, show heapLo < heapHi by decide⟩

/-- **The guest heap is sound throughout a run exactly when each of its calls is
harmless.** -/
theorem heapSound_iff (h : w.rm.heap_memory = .vmaHeapEntryInit bytes)
    {run : List (World × Traced)} (hrun : IsRun (heapStep t) (.init w) run) :
    Throughout HeapSound (.init w) run ↔ Along HeapOk (.init w) run :=
  throughout_iff_along (I := HeapInv) (P := HeapSound) (C := HeapOk)
    (fun _ _ _ hi hs hstep => heapSound_step hi hs hstep)
    (fun _ _ _ hi _ hok hstep => heapInv_step hi hok hstep)
    (heapInv_init h) (heapSound_init h) hrun

/-- The areas of a heap with its cursor at `cur`. -/
def areasAt (cur : Addr) : RuntimeManager :=
  ⟨[], ⟨-1, 0, 0, 0, 0⟩, { MappedMemory.vmaHeapEntryInit 0 with heap_cur := cur }⟩

/-- A world where the guest is about to make the call `n` of `x0` and `x1`. -/
def callWorld (cur n x0 x1 : BitVec 64) : World where
  cpu := ⟨fun r => if r = SYSNUMREG then n else if r = X0 then x0 else if r = X1 then x1
    else if r = X4 then -1 else 0, fun _ => 0, 0⟩
  rm := areasAt cur
  mem := fun _ => 0
  errno := 0
  host := fun _ => ⟨0, none, [], fun _ => 0⟩
  calls := []

/-- The state that `mmap(0, len)` leads to from there. -/
def mmapped (s : Traced) (cur len : BitVec 64) : Traced :=
  s.record (callWorld cur AARCH64_SYS_MMAP 0 len)
    { callWorld cur AARCH64_SYS_MMAP 0 len with
      cpu := (callWorld cur AARCH64_SYS_MMAP 0 len).cpu.setQword X0 cur
      rm := (callWorld cur AARCH64_SYS_MMAP 0 len).rm.withCur (cur + len) }

/-- The state that `brk(b)` leads to from there. -/
def broken (s : Traced) (cur b : BitVec 64) : Traced :=
  s.record (callWorld cur AARCH64_SYS_BRK b 0)
    { callWorld cur AARCH64_SYS_BRK b 0 with
      rm := (callWorld cur AARCH64_SYS_BRK b 0).rm.withCur b }

theorem heapStep_mmap {s : Traced} {cur : Addr} (hs : s.world.rm = areasAt cur)
    (len : BitVec 64) :
    heapStep (.native ⟨64⟩) s (callWorld cur AARCH64_SYS_MMAP 0 len) (mmapped s cur len) := by
  refine ⟨hs.symm, show AARCH64_SYS_MMAP ∈ heapSyscalls by decide, _, ?_, rfl⟩
  rw [svcCall_mmap rfl]
  exact sysMmap_anonymous (show (-1 : BitVec 64).setWidth 32 = -1 by decide) rfl rfl

theorem heapStep_brk {s : Traced} {cur b : Addr} (hs : s.world.rm = areasAt cur) (h0 : b ≠ 0)
    (hin : HEAPS_START_VMA ≤ b ∧ b < HEAPS_START_VMA + HEAP_UNIT_SIZE) :
    heapStep (.native ⟨64⟩) s (callWorld cur AARCH64_SYS_BRK b 0) (broken s cur b) := by
  refine ⟨hs.symm, show AARCH64_SYS_BRK ∈ heapSyscalls by decide, _, ?_, rfl⟩
  rw [svcCall_brk rfl]
  exact sysBrk_within h0 hin

/-- The break is moved by a page; then a page is mapped, and a part of the next one. -/
theorem heapSound_iff_break :
    let s₀ : Traced := .init (callWorld HEAPS_START_VMA AARCH64_SYS_BRK 0 0)
    let s₁ := broken s₀ HEAPS_START_VMA (HEAPS_START_VMA + 0x1000)
    let s₂ := mmapped s₁ (HEAPS_START_VMA + 0x1000) 0x1000
    let s₃ := mmapped s₂ (HEAPS_START_VMA + 0x2000) 100
    Throughout HeapSound s₀
      [(callWorld HEAPS_START_VMA AARCH64_SYS_BRK (HEAPS_START_VMA + 0x1000) 0, s₁),
        (callWorld (HEAPS_START_VMA + 0x1000) AARCH64_SYS_MMAP 0 0x1000, s₂),
        (callWorld (HEAPS_START_VMA + 0x2000) AARCH64_SYS_MMAP 0 100, s₃)] := by
  intro s₀ s₁ s₂ s₃
  have hrun : IsRun (heapStep (.native ⟨64⟩)) s₀
      [(callWorld HEAPS_START_VMA AARCH64_SYS_BRK (HEAPS_START_VMA + 0x1000) 0, s₁),
        (callWorld (HEAPS_START_VMA + 0x1000) AARCH64_SYS_MMAP 0 0x1000, s₂),
        (callWorld (HEAPS_START_VMA + 0x2000) AARCH64_SYS_MMAP 0 100, s₃)] :=
    ⟨heapStep_brk rfl (by decide) (by decide), heapStep_mmap rfl 0x1000, heapStep_mmap rfl 100,
      trivial⟩
  have hbrk : s₀.arena.BreakOk (HEAPS_START_VMA + 0x1000).toNat := fun _ h => nomatch h
  have hpage : s₁.arena.AllocOk heapHi AT_PAGESZ 0x1000 :=
    ⟨by decide, by decide, fun _ h => nomatch h⟩
  have hpart : s₂.arena.AllocOk heapHi AT_PAGESZ 100 := by
    refine ⟨by decide, by decide, List.forall_mem_singleton.mpr fun _ => ?_⟩
    decide
  exact (heapSound_iff (w := callWorld HEAPS_START_VMA AARCH64_SYS_BRK 0 0) rfl hrun).mpr
    ⟨hbrk, hpage, hpart, trivial⟩

/-- Two gibibytes from a heap of one: `mmap` succeeds and the range leaves the heap. -/
theorem heap_not_sound :
    let w := callWorld HEAPS_START_VMA AARCH64_SYS_MMAP 0 0x80000000
    let s := mmapped (.init w) HEAPS_START_VMA 0x80000000
    IsRun (heapStep (.native ⟨64⟩)) (.init w) [(w, s)] ∧
      ¬ Throughout HeapSound (.init w) [(w, s)] := by
  intro w s
  refine ⟨⟨heapStep_mmap rfl _, trivial⟩, fun h => ?_⟩
  have hsound : HeapSound s := h.2 _ List.mem_cons_self
  have hcur := hsound.cur_mem.2
  exact absurd hcur (by decide)

end Runs

end Elfconv
