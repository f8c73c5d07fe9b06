/-
Elfconv/Runtime/Machine.lean

The state the runtime works on: the guest registers of `CPUState`, the mapped
areas of `RuntimeManager`, and the host memory that backs them.

A register of the guest is one 64-bit word with two views, `dword` (its low half)
and `qword`.  Writing the `dword` view leaves the high half as it was, because
the two views are members of one union.

Guest addresses are virtual (`addr_t`); `translateVMA` maps them to host
pointers.  Host memory is a total function from host pointers to bytes: the
buffers of the areas are pieces of it.
-/
import Mathlib.Data.BitVec
import Mathlib.Tactic.Common

namespace Elfconv

/-- A guest virtual address. -/
abbrev Addr := BitVec 64

/-- A host pointer. -/
abbrev HostPtr := BitVec 64

/-- The general registers of `State.gpr`. -/
inductive Gpr
  | x (n : Fin 31)
  | sp
  | pc
  deriving DecidableEq, Repr

/-- The guest registers (`struct State`). -/
structure State where
  gpr : Gpr → BitVec 64
  simd : Fin 32 → BitVec 128
  ecv_nzcv : BitVec 64

namespace State

/-- The 64-bit view of a register. -/
def qword (s : State) (r : Gpr) : BitVec 64 := s.gpr r

/-- The 32-bit view of a register. -/
def dword (s : State) (r : Gpr) : BitVec 32 := (s.gpr r).setWidth 32

/-- A write of the whole register. -/
def setQword (s : State) (r : Gpr) (v : BitVec 64) : State :=
  { s with gpr := fun r' => if r' = r then v else s.gpr r' }

/-- A write through the 32-bit view keeps the high half of the register. -/
def setDword (s : State) (r : Gpr) (v : BitVec 32) : State :=
  s.setQword r ((s.gpr r).extractLsb' 32 32 ++ v)

@[simp] theorem qword_setQword (s : State) (r : Gpr) (v : BitVec 64) :
    (s.setQword r v).qword r = v := by
  simp [qword, setQword]

@[simp] theorem gpr_setQword_of_ne (s : State) {r r' : Gpr} (v : BitVec 64) (h : r' ≠ r) :
    (s.setQword r v).gpr r' = s.gpr r' := by
  simp [setQword, h]

@[simp] theorem gpr_setDword_of_ne (s : State) {r r' : Gpr} (v : BitVec 32) (h : r' ≠ r) :
    (s.setDword r v).gpr r' = s.gpr r' := by
  simp [setDword, h]

/-- The two views share the low half. -/
@[simp] theorem dword_setDword (s : State) (r : Gpr) (v : BitVec 32) :
    (s.setDword r v).dword r = v := by
  have hlow : ∀ w : BitVec 32, (w ++ v : BitVec (32 + 32)).setWidth 32 = v := by
    intro w
    rw [BitVec.setWidth_append]
    simp
  simpa [dword, setDword, setQword] using hlow _

end State

/-- An area of guest memory (`class MappedMemory`): the guest addresses
`[vma, vma_end)` live at the host pointer `bytes`.  `heap_cur` is used by the heap
area only. -/
structure MappedMemory where
  vma : Addr
  vma_end : Addr
  len : BitVec 64
  bytes : HostPtr
  heap_cur : Addr

/-- The areas the runtime knows (`class RuntimeManager`). -/
structure RuntimeManager where
  mapped_memorys : List MappedMemory
  stack_memory : MappedMemory
  heap_memory : MappedMemory

/-- `RuntimeManager::TranslateVMA`: the stack and the heap are tested by their lower
bound alone, then the data areas by both bounds.  `none` is the not-mapped error. -/
def RuntimeManager.translateVMA (rm : RuntimeManager) (vma_addr : Addr) : Option HostPtr :=
  if rm.stack_memory.vma ≤ vma_addr then
    some (rm.stack_memory.bytes + (vma_addr - rm.stack_memory.vma))
  else if rm.heap_memory.vma ≤ vma_addr then
    some (rm.heap_memory.bytes + (vma_addr - rm.heap_memory.vma))
  else
    (rm.mapped_memorys.find? fun memory =>
        memory.vma ≤ vma_addr && vma_addr < memory.vma_end).map fun memory =>
      memory.bytes + (vma_addr - memory.vma)

/-- Where the heap starts for the guest. -/
def HEAPS_START_VMA : Addr := 0x400000000000

/-- How long the heap is. -/
def HEAP_UNIT_SIZE : BitVec 64 := 1024 * 1024 * 1024

/-- `MappedMemory::VMAHeapEntryInit`, given the pointer `malloc` returned. -/
def MappedMemory.vmaHeapEntryInit (bytes : HostPtr) : MappedMemory where
  vma := HEAPS_START_VMA
  vma_end := HEAPS_START_VMA + HEAP_UNIT_SIZE
  len := HEAP_UNIT_SIZE
  bytes := bytes
  heap_cur := HEAPS_START_VMA

/-- Host memory. -/
abbrev HostMem := HostPtr → BitVec 8

namespace HostMem

/-- `memcpy` of a byte list to `dst`. -/
def write (m : HostMem) (dst : HostPtr) (bs : List (BitVec 8)) : HostMem := fun p =>
  if h : (p - dst).toNat < bs.length then bs[(p - dst).toNat] else m p

/-- The `n` bytes from `src` upward. -/
def read (m : HostMem) (src : HostPtr) (n : Nat) : List (BitVec 8) :=
  (List.range n).map fun i => m (src + BitVec.ofNat 64 i)

/-- The little-endian bytes of the low `n` bytes of a word. -/
def leBytes (n : Nat) (v : BitVec 64) : List (BitVec 8) :=
  (List.range n).map fun i => v.extractLsb' (8 * i) 8

/-- The word with the given little-endian bytes. -/
def leWord (bs : List (BitVec 8)) : BitVec 64 :=
  bs.foldr (fun b acc => acc <<< 8 ||| b.setWidth 64) 0

end HostMem

end Elfconv
