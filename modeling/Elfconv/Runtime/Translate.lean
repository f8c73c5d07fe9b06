/-
Elfconv/Runtime/Translate.lean

Guest accesses through `TranslateVMA`.

An access of the `__remill_read_memory_*` and `__remill_write_memory_*` intrinsics is an
address and a size; `TranslateVMA` sees the address alone.  The stack and the heap are
tested by their lower bounds and a data section by its first byte, so the access may run
past the end of the area it starts in, and past the end of a stack or heap whose buffer is
shorter.  `translated_iff` says which accesses stay inside.
-/
import Elfconv.Runtime.Machine
import Mathlib.Data.List.Pairwise

namespace Elfconv

/-! ### Areas -/

namespace MappedMemory

/-- The host pointer of a guest address. -/
def hostPtr (m : MappedMemory) (vma_addr : Addr) : HostPtr := m.bytes + (vma_addr - m.vma)

/-- All of the `n` bytes from the address on are in the area. -/
def Contains (m : MappedMemory) (vma_addr : Addr) (n : Nat) : Prop :=
  m.vma ≤ vma_addr ∧ vma_addr.toNat + n ≤ m.vma_end.toNat

/-- The host pointer is in the buffer of the area. -/
def Owns (m : MappedMemory) (p : HostPtr) : Prop :=
  m.bytes.toNat ≤ p.toNat ∧ p.toNat < m.bytes.toNat + m.len.toNat

end MappedMemory

namespace RuntimeManager

/-- All areas, in the order in which they are tested. -/
def areas (rm : RuntimeManager) : List MappedMemory :=
  rm.stack_memory :: rm.heap_memory :: rm.mapped_memorys

/-- The area that an address is translated by. -/
def areaOf (rm : RuntimeManager) (vma_addr : Addr) : Option MappedMemory :=
  if rm.stack_memory.vma ≤ vma_addr then some rm.stack_memory
  else if rm.heap_memory.vma ≤ vma_addr then some rm.heap_memory
  else
    rm.mapped_memorys.find? fun memory => memory.vma ≤ vma_addr && vma_addr < memory.vma_end

end RuntimeManager

/-- The areas of a running program, with data sections that may overlap: the end of each is
computed from its length, and the buffers are allocated apart. -/
structure Layout extends RuntimeManager where
  ends : ∀ m ∈ toRuntimeManager.areas, m.vma_end = m.vma + m.len
  allocated : ∀ m ∈ toRuntimeManager.areas, m.bytes.toNat + m.len.toNat ≤ 2 ^ 64
  apart : toRuntimeManager.areas.Pairwise fun m m' => ∀ p, m.Owns p → ¬ m'.Owns p

/-! ### Accesses -/

/-- An access of the guest to at least one byte. -/
structure MemAccess where
  addr : Addr
  size : Nat
  size_pos : 0 < size

namespace RuntimeManager

/-- The bytes that an intrinsic reads or writes. -/
def Touches (rm : RuntimeManager) (acc : MemAccess) (p : HostPtr) : Prop :=
  ∃ q, rm.translateVMA acc.addr = some q ∧ ∃ i < acc.size, p = q + BitVec.ofNat 64 i

/-- An access is translated by an area only if all of it lies inside that area, and no area
holds an access that is not translated. -/
def Exact (rm : RuntimeManager) (acc : MemAccess) : Prop :=
  (∃ m ∈ rm.areas, rm.areaOf acc.addr = some m ∧
      rm.translateVMA acc.addr = some (m.hostPtr acc.addr) ∧ m.Contains acc.addr acc.size) ∨
    rm.translateVMA acc.addr = none ∧ ∀ m ∈ rm.areas, ¬ m.Contains acc.addr acc.size

/-- The accesses are translated exactly, each stays in the buffer of its area, and two of
them by different areas touch no byte in common. -/
structure Translated (rm : RuntimeManager) (accs : List MemAccess) : Prop where
  exact : ∀ acc ∈ accs, rm.Exact acc
  inside : ∀ acc ∈ accs, ∀ m, rm.areaOf acc.addr = some m → ∀ p, rm.Touches acc p → m.Owns p
  separate : ∀ acc ∈ accs, ∀ acc' ∈ accs, rm.areaOf acc.addr ≠ rm.areaOf acc'.addr →
    ∀ p, rm.Touches acc p → ¬ rm.Touches acc' p

/-- The access ends before the end of the stack if it starts at or above the stack, before
the end of the heap if it starts between the heap and the stack, and else before the end of
the first section that holds its first byte. -/
def Fits (rm : RuntimeManager) (acc : MemAccess) : Prop :=
  if rm.stack_memory.vma ≤ acc.addr then
    acc.addr.toNat + acc.size ≤ rm.stack_memory.vma_end.toNat
  else if rm.heap_memory.vma ≤ acc.addr then
    acc.addr.toNat + acc.size ≤ rm.heap_memory.vma_end.toNat
  else
    ∀ m, (rm.mapped_memorys.find? fun m => m.vma ≤ acc.addr && acc.addr < m.vma_end) = some m →
      acc.addr.toNat + acc.size ≤ m.vma_end.toNat

/-! ### The area of an address -/

variable {rm : RuntimeManager} {acc : MemAccess} {m : MappedMemory}

theorem translateVMA_eq (rm : RuntimeManager) (vma_addr : Addr) :
    rm.translateVMA vma_addr = (rm.areaOf vma_addr).map (·.hostPtr vma_addr) := by
  unfold translateVMA areaOf
  split
  · rfl
  · split
    · rfl
    · rfl

/-- What is known of the area that an address is translated by. -/
theorem areaOf_some {vma_addr : Addr} (h : rm.areaOf vma_addr = some m) :
    m ∈ rm.areas ∧ m.vma ≤ vma_addr := by
  unfold areaOf at h
  split at h
  · rename_i hstack
    cases h
    exact ⟨List.mem_cons_self, hstack⟩
  · split at h
    · rename_i hheap
      cases h
      exact ⟨List.mem_cons_of_mem _ List.mem_cons_self, hheap⟩
    · have hmem := List.mem_of_find?_eq_some h
      have htest := List.find?_some h
      rw [Bool.and_eq_true, decide_eq_true_eq] at htest
      exact ⟨List.mem_cons_of_mem _ (List.mem_cons_of_mem _ hmem), htest.1⟩

/-- An address that is not translated is in no area. -/
theorem areaOf_none {vma_addr : Addr} (h : rm.areaOf vma_addr = none) :
    ∀ m ∈ rm.areas, m.vma ≤ vma_addr → m.vma_end ≤ vma_addr := by
  unfold areaOf at h
  split at h
  · cases h
  · rename_i hstack
    split at h
    · cases h
    · rename_i hheap
      intro m hm hle
      rcases List.mem_cons.mp hm with rfl | hm
      · exact absurd hle hstack
      · rcases List.mem_cons.mp hm with rfl | hm
        · exact absurd hle hheap
        · have htest := List.find?_eq_none.mp h m hm
          rw [Bool.and_eq_true, decide_eq_true_eq, decide_eq_true_eq, not_and,
            BitVec.not_lt] at htest
          exact htest hle

theorem fits_iff : rm.Fits acc ↔
    ∀ m, rm.areaOf acc.addr = some m → acc.addr.toNat + acc.size ≤ m.vma_end.toNat := by
  unfold Fits areaOf
  split
  · simp only [Option.some.injEq, forall_eq']
  · split
    · simp only [Option.some.injEq, forall_eq']
    · exact Iff.rfl

/-- **One access is translated exactly when it fits.** -/
theorem exact_iff : rm.Exact acc ↔ rm.Fits acc := by
  rw [fits_iff]
  unfold Exact
  rw [translateVMA_eq]
  cases harea : rm.areaOf acc.addr with
  | none =>
      refine iff_of_true (.inr ⟨rfl, fun m hm hin => ?_⟩) fun m hm => nomatch hm
      have hend := areaOf_none harea m hm hin.1
      rw [BitVec.le_def] at hend
      have := hin.2
      have := acc.size_pos
      omega
  | some m =>
      obtain ⟨hm, hle⟩ := areaOf_some harea
      simp only [Option.some.injEq, forall_eq', Option.map_some, reduceCtorEq, false_and,
        or_false]
      constructor
      · rintro ⟨m', -, rfl, -, hin⟩
        exact hin.2
      · exact fun hfits => ⟨m, hm, rfl, rfl, hle, hfits⟩

end RuntimeManager

/-! ### Layouts -/

namespace Layout

variable {L : Layout} {acc : MemAccess} {m : MappedMemory}

/-- An access that fits touches the buffer of its area only. -/
theorem owns_of_fits (hfits : L.Fits acc) (harea : L.areaOf acc.addr = some m) {p : HostPtr}
    (hp : L.Touches acc p) : m.Owns p := by
  obtain ⟨hm, hle⟩ := RuntimeManager.areaOf_some harea
  have hend := RuntimeManager.fits_iff.mp hfits m harea
  obtain ⟨q, hq, i, hi, rfl⟩ := hp
  rw [RuntimeManager.translateVMA_eq, harea, Option.map_some, Option.some.injEq] at hq
  subst hq
  have halloc := L.allocated m hm
  have hvma := m.vma.isLt
  have hlen := m.len.isLt
  have haddr := acc.addr.isLt
  rw [L.ends m hm, BitVec.toNat_add] at hend
  rw [BitVec.le_def] at hle
  -- the area does not wrap around: it ends above the address
  have hwrap : m.vma.toNat + m.len.toNat < 2 ^ 64 := by
    by_contra hge
    rw [Nat.mod_eq_sub_mod (Nat.le_of_not_lt hge)] at hend
    have := Nat.mod_le (m.vma.toNat + m.len.toNat - 2 ^ 64) (2 ^ 64)
    have := acc.size_pos
    omega
  rw [Nat.mod_eq_of_lt hwrap] at hend
  have hoff : (acc.addr - m.vma).toNat = acc.addr.toNat - m.vma.toNat :=
    BitVec.toNat_sub_of_le (BitVec.le_def.mpr hle)
  have hq : (m.hostPtr acc.addr + BitVec.ofNat 64 i).toNat =
      m.bytes.toNat + (acc.addr.toNat - m.vma.toNat) + i := by
    have hi64 : i < 2 ^ 64 := by omega
    rw [MappedMemory.hostPtr, BitVec.toNat_add, BitVec.toNat_add, hoff, BitVec.toNat_ofNat,
      Nat.mod_eq_of_lt hi64, Nat.mod_eq_of_lt (a := m.bytes.toNat + _) (by omega),
      Nat.mod_eq_of_lt (by omega)]
  unfold MappedMemory.Owns
  omega

/-- Different areas own no byte in common. -/
theorem apart_of_ne {m' : MappedMemory} (hm : m ∈ L.areas) (hm' : m' ∈ L.areas) (hne : m ≠ m')
    {p : HostPtr} (hp : m.Owns p) : ¬ m'.Owns p := by
  have : Std.Symm fun m m' : MappedMemory => ∀ p, m.Owns p → ¬ m'.Owns p :=
    ⟨fun _ _ h p hp hp' => h p hp' hp⟩
  exact L.apart.forall hm hm' hne p hp

/-- **The accesses of a program are translated exactly when each of them fits.** -/
theorem translated_iff (L : Layout) (accs : List MemAccess) :
    L.Translated accs ↔ ∀ acc ∈ accs, L.Fits acc := by
  constructor
  · exact fun h acc hacc => RuntimeManager.exact_iff.mp (h.exact acc hacc)
  · intro h
    refine ⟨fun acc hacc => RuntimeManager.exact_iff.mpr (h acc hacc),
      fun acc hacc m harea p hp => owns_of_fits (h acc hacc) harea hp,
      fun acc hacc acc' hacc' hne p hp hp' => ?_⟩
    -- both areas own the byte
    have harea : ∀ acc : MemAccess, L.Touches acc p → ∃ m, L.areaOf acc.addr = some m := by
      rintro acc ⟨q, hq, -⟩
      rw [RuntimeManager.translateVMA_eq] at hq
      obtain ⟨m, hm, -⟩ := Option.map_eq_some_iff.mp hq
      exact ⟨m, hm⟩
    obtain ⟨m, hm⟩ := harea acc hp
    obtain ⟨m', hm'⟩ := harea acc' hp'
    rw [hm, hm', ne_eq, Option.some.injEq] at hne
    exact apart_of_ne (RuntimeManager.areaOf_some hm).1 (RuntimeManager.areaOf_some hm').1 hne
      (owns_of_fits (h acc hacc) hm hp) (owns_of_fits (h acc' hacc') hm' hp')

end Layout

/-! ### The areas of an empty program -/

/-- Where the stack area starts for the guest. -/
def STACK_START_VMA : Addr := 0x0fffff0000000000

/-- How long the stack area is. -/
def STACK_SIZE : BitVec 64 := 1 * 1024 * 1024

/-- The area of `MappedMemory::VMAStackEntryInit`, given the pointer `malloc` returned. -/
def MappedMemory.vmaStackEntryInit (bytes : HostPtr) : MappedMemory where
  vma := STACK_START_VMA
  vma_end := STACK_START_VMA + STACK_SIZE
  len := STACK_SIZE
  bytes := bytes
  heap_cur := 0

/-- `main` for a program without data sections. -/
def Layout.ofMain : Layout where
  mapped_memorys := []
  stack_memory := .vmaStackEntryInit 0x10000000
  heap_memory := .vmaHeapEntryInit 0x20000000
  ends := by
    simp only [RuntimeManager.areas, List.mem_cons, List.not_mem_nil, or_false, forall_eq_or_imp,
      forall_eq]
    decide
  allocated := by
    simp only [RuntimeManager.areas, List.mem_cons, List.not_mem_nil, or_false, forall_eq_or_imp,
      forall_eq]
    decide
  apart := by
    refine List.pairwise_pair.mpr fun p hp hp' => ?_
    simp only [MappedMemory.Owns, MappedMemory.vmaStackEntryInit, MappedMemory.vmaHeapEntryInit,
      STACK_SIZE, HEAP_UNIT_SIZE] at hp hp'
    simp at hp hp'
    omega

/-- The first byte behind the heap is read from behind the buffer of the heap. -/
theorem Layout.not_translated :
    ¬ ofMain.Translated [⟨HEAPS_START_VMA + HEAP_UNIT_SIZE, 1, Nat.one_pos⟩] := by
  intro h
  have hfits := RuntimeManager.fits_iff.mp
    (RuntimeManager.exact_iff.mp (h.exact _ List.mem_cons_self)) (.vmaHeapEntryInit 0x20000000)
  exact absurd (hfits rfl) (by decide)

end Elfconv
