/-
Elfconv/Runtime/InitialStack.lean

The stack that the guest starts with.

`VMAStackEntryInit` moves the stack pointer down from the end of the area: over 16 bytes for
`AT_RANDOM`, a copy of the program headers, the auxiliary vector, the end of the environment,
room for the argument pointers, and `argc`.  The pointer is not rounded, and the room for the
argument pointers is left as it is.
-/
import Elfconv.Runtime.HostBytes
import Elfconv.Runtime.Translate

namespace Elfconv

open HostMem

/-! ### The code -/

/-! The types of the entries of the auxiliary vector. -/

namespace Auxv

/-- The end of the vector. -/
def AT_NULL : BitVec 64 := 0

/-- The address of the program headers. -/
def AT_PHDR : BitVec 64 := 3

/-- The size of a program header. -/
def AT_PHENT : BitVec 64 := 4

/-- The number of program headers. -/
def AT_PHNUM : BitVec 64 := 5

/-- The size of a page. -/
def AT_PAGESZ : BitVec 64 := 6

/-- The entry of the program. -/
def AT_ENTRY : BitVec 64 := 9

/-- The real user. -/
def AT_UID : BitVec 64 := 11

/-- The effective user. -/
def AT_EUID : BitVec 64 := 12

/-- The real group. -/
def AT_GID : BitVec 64 := 13

/-- The effective group. -/
def AT_EGID : BitVec 64 := 14

/-- Whether the program is run with the rights of its owner. -/
def AT_SECURE : BitVec 64 := 23

/-- The address of sixteen random bytes. -/
def AT_RANDOM : BitVec 64 := 25

end Auxv

/-- The globals that describe the lifted program. -/
structure LiftedElf where
  e_phent : BitVec 32
  e_phnum : BitVec 32
  e_ph : Nat → BitVec 8
  entry_pc : Addr

/-- What `getuid`, `geteuid`, `getgid` and `getegid` return. -/
structure HostIds where
  uid : BitVec 32
  euid : BitVec 32
  gid : BitVec 32
  egid : BitVec 32

/-- On WASI the identities are constants. -/
def HostIds.wasi : HostIds := ⟨42, 42, 42, 42⟩

/-- `_ecv_auxv64`. -/
def auxv64 (elf : LiftedElf) (ids : HostIds) (phdr randomp : Addr) :
    List (BitVec 64 × BitVec 64) :=
  [(Auxv.AT_PHDR, phdr), (Auxv.AT_PHENT, elf.e_phent.setWidth 64),
    (Auxv.AT_PHNUM, elf.e_phnum.setWidth 64), (Auxv.AT_PAGESZ, 4096),
    (Auxv.AT_ENTRY, elf.entry_pc), (Auxv.AT_UID, ids.uid.setWidth 64),
    (Auxv.AT_EUID, ids.euid.setWidth 64), (Auxv.AT_GID, ids.gid.setWidth 64),
    (Auxv.AT_EGID, ids.egid.setWidth 64), (Auxv.AT_SECURE, 0), (Auxv.AT_RANDOM, randomp),
    (Auxv.AT_NULL, 0)]

/-- The words of a list of entries. -/
def auxvWords (auxv : List (BitVec 64 × BitVec 64)) : List (BitVec 64) :=
  auxv.flatMap fun e => [e.1, e.2]

/-- The bytes of an array of words. -/
def wordBytes (words : List (BitVec 64)) : List (BitVec 8) := words.flatMap (leBytes 8)

/-- `MappedMemory::VMAStackEntryInit`, given the pointer `malloc` returned: the area, host memory
and the guest registers. -/
def vmaStackEntryInit (bytes : HostPtr) (elf : LiftedElf) (ids : HostIds) (argc : BitVec 32)
    (mem : HostMem) (cpu : State) : MappedMemory × HostMem × State :=
  let vma := STACK_START_VMA
  let len := STACK_SIZE
  let mem := mem.write bytes (List.replicate len.toNat 0)
  let sp := vma + len
  -- the 16 bytes of `AT_RANDOM`
  let sp := sp - 16
  let mem := mem.write (bytes + (sp - vma)) (List.replicate 16 1)
  let randomp := sp
  -- the program headers, then the auxiliary vector
  let e_ph_size := elf.e_phent * elf.e_phnum
  let sp := sp - e_ph_size.setWidth 64
  let mem := mem.write (bytes + (sp - vma)) ((List.range e_ph_size.toNat).map elf.e_ph)
  let phdr := sp
  let auxv := wordBytes (auxvWords (auxv64 elf ids phdr randomp))
  let sp := sp - BitVec.ofNat 64 auxv.length
  let mem := mem.write (bytes + (sp - vma)) auxv
  -- the null of `envp`, the room of `argv`, into which nothing is written, and `argc`
  let sp := sp - 8
  let sp := sp - 8 * (argc + 1).signExtend 64
  let sp := sp - 8
  let mem := mem.write (bytes + (sp - vma)) (leBytes 8 (argc.signExtend 64))
  (.vmaStackEntryInit bytes, mem, cpu.setQword .sp sp)

/-! ### What a guest finds at its start -/

/-- What stands on the stack, and where. -/
structure StartInfo where
  argv : List Addr
  envp : List Addr
  auxv : List (BitVec 64 × BitVec 64)
  phdr : Addr
  random : Addr

namespace StartInfo

variable (i : StartInfo)

/-- The words from the stack pointer upward. -/
def words : List (BitVec 64) :=
  BitVec.ofNat 64 i.argv.length :: i.argv ++ 0 :: i.envp ++ 0 :: auxvWords i.auxv ++
    [Auxv.AT_NULL, 0]

/-- Pieces of guest memory: an address and what stands there. -/
def pieces (sp : Addr) (args : List (List (BitVec 8))) (ph random : List (BitVec 8)) :
    List (Addr × List (BitVec 8)) :=
  (sp, wordBytes i.words) :: (i.phdr, ph) :: (i.random, random) ::
    (i.argv.zip args).map fun a => (a.1, a.2 ++ [0])

end StartInfo

/-- The pieces have no byte in common. -/
def ApartPieces (x y : Addr × List (BitVec 8)) : Prop :=
  x.1.toNat + x.2.length ≤ y.1.toNat ∨ y.1.toNat + y.2.length ≤ x.1.toNat

/-- **The process starts as the ABI asks**, with the arguments `args` and the program headers
`ph`: the stack pointer is aligned, the words from there are `argc`, the argument pointers, the
environment and the auxiliary vector, and what they point to is in the area. -/
structure StartsProcess (area : MappedMemory) (m : HostMem) (sp : Addr)
    (args : List (List (BitVec 8))) (ph : List (BitVec 8)) (i : StartInfo)
    (random : List (BitVec 8)) : Prop where
  aligned : sp.toNat % 16 = 0
  argc : i.argv.length = args.length
  envp : ∀ p ∈ i.envp, p ≠ 0
  auxv : ∀ e ∈ i.auxv, e.1 ≠ Auxv.AT_NULL
  at_phdr : ∀ p, (Auxv.AT_PHDR, p) ∈ i.auxv ↔ p = i.phdr
  at_random : ∀ p, (Auxv.AT_RANDOM, p) ∈ i.auxv ↔ p = i.random
  random_length : random.length = 16
  stands : ∀ x ∈ i.pieces sp args ph random,
    area.Contains x.1 x.2.length ∧ m.Holds (area.hostPtr x.1) x.2
  apart : (i.pieces sp args ph random).Pairwise ApartPieces

/-! ### Where things are put -/

namespace LiftedElf

variable (elf : LiftedElf) (n : Nat)

/-- The bytes of the program headers. -/
def phBytes : List (BitVec 8) := (List.range (elf.e_phent.toNat * elf.e_phnum.toNat)).map elf.e_ph

@[simp] theorem length_phBytes :
    elf.phBytes.length = elf.e_phent.toNat * elf.e_phnum.toNat := by
  rw [phBytes, List.length_map, List.length_range]

/-- The pieces for `n` arguments fit in the area. -/
def Fits : Prop := 232 + elf.phBytes.length + 8 * n ≤ STACK_SIZE.toNat

/-- The offsets in the area. -/
def randomOff : Nat := STACK_SIZE.toNat - 16

/-- The program headers end where the random bytes start. -/
def phdrOff : Nat := STACK_SIZE.toNat - (16 + elf.phBytes.length)

/-- The auxiliary vector has twelve entries of sixteen bytes. -/
def auxvOff : Nat := STACK_SIZE.toNat - (208 + elf.phBytes.length)

/-- The argument count, the pointers to `n` arguments and the two zeros come first. -/
def spOff : Nat := STACK_SIZE.toNat - (232 + elf.phBytes.length + 8 * n)

end LiftedElf

open LiftedElf

section Code

variable {elf : LiftedElf} {n : Nat} {ids : HostIds} {bytes : HostPtr} {mem : HostMem} {cpu : State}

theorem length_wordBytes (words : List (BitVec 64)) :
    (wordBytes words).length = 8 * words.length := by
  induction words with
  | nil => rfl
  | cons v words ih =>
      show (leBytes 8 v ++ wordBytes words).length = _
      rw [List.length_append, ih, length_leBytes, List.length_cons]
      omega

theorem length_auxv (phdr randomp : Addr) :
    (wordBytes (auxvWords (auxv64 elf ids phdr randomp))).length = 192 := by
  rw [length_wordBytes]
  rfl

/-- A step of the stack pointer. -/
theorem sub_sp {a b : Nat} (h : b ≤ a) :
    STACK_START_VMA + BitVec.ofNat 64 a - BitVec.ofNat 64 b =
      STACK_START_VMA + BitVec.ofNat 64 (a - b) := by
  apply BitVec.eq_of_toNat_eq
  simp only [BitVec.toNat_sub, BitVec.toNat_add, BitVec.toNat_ofNat]
  omega

theorem sp_sub_vma (a : Nat) :
    STACK_START_VMA + BitVec.ofNat 64 a - STACK_START_VMA = BitVec.ofNat 64 a := by
  rw [BitVec.add_comm, BitVec.add_sub_cancel]

/-- Nothing is lost when the sizes are computed in 32 bits. -/
theorem LiftedElf.Fits.e_ph_size (h : elf.Fits n) :
    (elf.e_phent * elf.e_phnum).toNat = elf.phBytes.length := by
  unfold Fits at h
  have hlen := elf.length_phBytes
  have hsize : STACK_SIZE.toNat = 1048576 := by decide
  rw [BitVec.toNat_mul, ← hlen, Nat.mod_eq_of_lt (by omega)]

/-- An argument count that fits in the area fits in an `int`. -/
theorem LiftedElf.Fits.argc (h : elf.Fits n) :
    (BitVec.ofNat 32 n).signExtend 64 = BitVec.ofNat 64 n ∧
      (BitVec.ofNat 32 n + 1).signExtend 64 = BitVec.ofNat 64 (n + 1) := by
  unfold Fits at h
  have hsize : STACK_SIZE.toNat = 1048576 := by decide
  have hext : ∀ k : Nat, k < 2 ^ 31 → (BitVec.ofNat 32 k).signExtend 64 = BitVec.ofNat 64 k := by
    intro k hk
    have hmsb : (BitVec.ofNat 32 k).msb = false := by
      rw [BitVec.msb_eq_false_iff_two_mul_lt, BitVec.toNat_ofNat]
      omega
    apply BitVec.eq_of_toNat_eq
    rw [BitVec.signExtend_eq_setWidth_of_msb_false hmsb, BitVec.toNat_setWidth, BitVec.toNat_ofNat,
      BitVec.toNat_ofNat]
    omega
  refine ⟨hext n (by omega), ?_⟩
  have hadd : BitVec.ofNat 32 n + 1 = BitVec.ofNat 32 (n + 1) := (BitVec.ofNat_add n 1).symm
  rw [hadd]
  exact hext (n + 1) (by omega)

/-- The pieces lie one below the other. -/
theorem LiftedElf.Fits.offsets (h : elf.Fits n) :
    randomOff + 16 = STACK_SIZE.toNat ∧ elf.phdrOff + elf.phBytes.length = randomOff ∧
      elf.auxvOff + 192 = elf.phdrOff ∧ elf.spOff n + (24 + 8 * n) = elf.auxvOff := by
  unfold LiftedElf.Fits at h
  unfold randomOff phdrOff auxvOff spOff
  have hsize : STACK_SIZE.toNat = 1048576 := by decide
  omega

/-- The memory after the five writes. -/
def stackMem (bytes : HostPtr) (elf : LiftedElf) (ids : HostIds) (n : Nat) (mem : HostMem) :
    HostMem :=
  let phdr := STACK_START_VMA + BitVec.ofNat 64 elf.phdrOff
  let randomp := STACK_START_VMA + BitVec.ofNat 64 randomOff
  ((((mem.write bytes (List.replicate STACK_SIZE.toNat 0)).write
    (bytes + BitVec.ofNat 64 randomOff) (List.replicate 16 1)).write
    (bytes + BitVec.ofNat 64 elf.phdrOff) elf.phBytes).write
    (bytes + BitVec.ofNat 64 elf.auxvOff)
      (wordBytes (auxvWords (auxv64 elf ids phdr randomp)))).write
    (bytes + BitVec.ofNat 64 (elf.spOff n)) (leBytes 8 (BitVec.ofNat 64 n))

/-- The code's sequence of copies, with its offsets written out. -/
theorem vmaStackEntryInit_eq (h : elf.Fits n) :
    vmaStackEntryInit bytes elf ids (BitVec.ofNat 32 n) mem cpu =
      (.vmaStackEntryInit bytes, stackMem bytes elf ids n mem,
        cpu.setQword .sp (STACK_START_VMA + BitVec.ofNat 64 (elf.spOff n))) := by
  obtain ⟨-, hp, ha, hs⟩ := h.offsets
  have hrandom : STACK_START_VMA + STACK_SIZE - 16 =
      STACK_START_VMA + BitVec.ofNat 64 randomOff := by decide
  have hphdr : STACK_START_VMA + BitVec.ofNat 64 randomOff -
      (elf.e_phent * elf.e_phnum).setWidth 64 = STACK_START_VMA + BitVec.ofNat 64 elf.phdrOff := by
    have hphsize : (elf.e_phent * elf.e_phnum).setWidth 64 =
        BitVec.ofNat 64 elf.phBytes.length := by
      apply BitVec.eq_of_toNat_eq
      rw [BitVec.toNat_setWidth, h.e_ph_size, BitVec.toNat_ofNat]
    rw [hphsize, sub_sp (Nat.le.intro ((Nat.add_comm _ _).trans hp)), ← hp, Nat.add_sub_cancel]
  have hauxv : STACK_START_VMA + BitVec.ofNat 64 elf.phdrOff - BitVec.ofNat 64 192 =
      STACK_START_VMA + BitVec.ofNat 64 elf.auxvOff := by
    rw [sub_sp (Nat.le.intro ((Nat.add_comm _ _).trans ha)), ← ha, Nat.add_sub_cancel]
  have hsp : STACK_START_VMA + BitVec.ofNat 64 elf.auxvOff - 8 -
      8 * BitVec.ofNat 64 (n + 1) - 8 = STACK_START_VMA + BitVec.ofNat 64 (elf.spOff n) := by
    have hmul : (8 : BitVec 64) * BitVec.ofNat 64 (n + 1) = BitVec.ofNat 64 (8 * (n + 1)) :=
      (BitVec.ofNat_mul 8 (n + 1)).symm
    rw [hmul]
    show _ - BitVec.ofNat 64 8 - _ - BitVec.ofNat 64 8 = _
    rw [sub_sp (by omega), sub_sp (by omega), sub_sp (by omega)]
    rw [show elf.auxvOff - 8 - 8 * (n + 1) - 8 = elf.spOff n by omega]
  have hph : (List.range (elf.e_phent * elf.e_phnum).toNat).map elf.e_ph = elf.phBytes := by
    rw [h.e_ph_size, length_phBytes, phBytes]
  unfold vmaStackEntryInit stackMem
  simp only [hrandom, hphdr, length_auxv, hauxv, h.argc.1, h.argc.2, hsp, sp_sub_vma, hph]

/-- What stands in the area. -/
structure StackBytes (bytes : HostPtr) (elf : LiftedElf) (ids : HostIds) (n : Nat) (m : HostMem) :
    Prop where
  argc : m.Holds (bytes + BitVec.ofNat 64 (elf.spOff n)) (leBytes 8 (BitVec.ofNat 64 n))
  pointers : m.Holds (bytes + BitVec.ofNat 64 (elf.spOff n + 8)) (List.replicate (16 + 8 * n) 0)
  auxv : m.Holds (bytes + BitVec.ofNat 64 elf.auxvOff) (wordBytes (auxvWords (auxv64 elf ids
    (STACK_START_VMA + BitVec.ofNat 64 elf.phdrOff) (STACK_START_VMA + BitVec.ofNat 64 randomOff))))
  phdr : m.Holds (bytes + BitVec.ofNat 64 elf.phdrOff) elf.phBytes
  random : m.Holds (bytes + BitVec.ofNat 64 randomOff) (List.replicate 16 1)

/-- What the copies leave in the area, piece by piece. -/
theorem LiftedElf.Fits.stackBytes (h : elf.Fits n) :
    StackBytes bytes elf ids n (stackMem bytes elf ids n mem) := by
  obtain ⟨hr, hp, ha, hs⟩ := h.offsets
  have hsize : STACK_SIZE.toNat = 1048576 := by decide
  have hauxv : (wordBytes (auxvWords (auxv64 elf ids (STACK_START_VMA + BitVec.ofNat 64 elf.phdrOff)
      (STACK_START_VMA + BitVec.ofNat 64 randomOff)))).length = 192 := length_auxv _ _
  have hargc : (leBytes 8 (BitVec.ofNat 64 n)).length = 8 := length_leBytes 8 _
  have hones : (List.replicate 16 (1 : BitVec 8)).length = 16 := List.length_replicate
  have hzeros : (List.replicate (16 + 8 * n) (0 : BitVec 8)).length = 16 + 8 * n :=
    List.length_replicate
  -- what is below is written later, and elsewhere
  constructor
  · exact holds_write bytes (by omega)
  · refine (holds_write_apart bytes (by omega) (by omega) (.inr (by omega))).mpr ?_
    refine (holds_write_apart bytes (by omega) (by omega) (.inl (by omega))).mpr ?_
    refine (holds_write_apart bytes (by omega) (by omega) (.inl (by omega))).mpr ?_
    refine (holds_write_apart bytes (by omega) (by omega) (.inl (by omega))).mpr ?_
    have hset : (mem.write (bytes + BitVec.ofNat 64 0) (List.replicate STACK_SIZE.toNat 0)).Holds
        (bytes + BitVec.ofNat 64 0) (List.replicate STACK_SIZE.toNat 0) :=
      holds_write bytes (by rw [List.length_replicate]; omega)
    have hmemset := hset.replicate (j := elf.spOff n + 8) (k := 16 + 8 * n) bytes
      (Nat.zero_le _) (by omega)
    rw [BitVec.ofNat_eq_ofNat, BitVec.add_zero] at hmemset
    exact hmemset
  · refine (holds_write_apart bytes (by omega) (by omega) (.inr (by omega))).mpr ?_
    exact holds_write bytes (by omega)
  · refine (holds_write_apart bytes (by omega) (by omega) (.inr (by omega))).mpr ?_
    refine (holds_write_apart bytes (by omega) (by omega) (.inr (by omega))).mpr ?_
    exact holds_write bytes (by omega)
  · refine (holds_write_apart bytes (by omega) (by omega) (.inr (by omega))).mpr ?_
    refine (holds_write_apart bytes (by omega) (by omega) (.inr (by omega))).mpr ?_
    refine (holds_write_apart bytes (by omega) (by omega) (.inr (by omega))).mpr ?_
    exact holds_write bytes (by omega)

/-- An address of the area, as a number. -/
theorem toNat_vma {a : Nat} (h : a ≤ STACK_SIZE.toNat) :
    (STACK_START_VMA + BitVec.ofNat 64 a).toNat = STACK_START_VMA.toNat + a := by
  have hsize : STACK_SIZE.toNat = 1048576 := by decide
  have hstart : STACK_START_VMA.toNat = 0x0fffff0000000000 := by decide
  rw [BitVec.toNat_add, BitVec.toNat_ofNat]
  omega

theorem hostPtr_vma (a : Nat) :
    (MappedMemory.vmaStackEntryInit bytes).hostPtr (STACK_START_VMA + BitVec.ofNat 64 a) =
      bytes + BitVec.ofNat 64 a := by
  show bytes + (STACK_START_VMA + BitVec.ofNat 64 a - STACK_START_VMA) = _
  rw [sp_sub_vma]

/-- A piece that ends in the area is contained in it. -/
theorem contains_vma {a k : Nat} (h : a + k ≤ STACK_SIZE.toNat) :
    (MappedMemory.vmaStackEntryInit bytes).Contains (STACK_START_VMA + BitVec.ofNat 64 a) k := by
  have hend : (STACK_START_VMA + STACK_SIZE).toNat = STACK_START_VMA.toNat + STACK_SIZE.toNat := by
    decide
  constructor
  · show STACK_START_VMA.toNat ≤ _
    rw [toNat_vma (by omega)]
    omega
  · show _ ≤ (STACK_START_VMA + STACK_SIZE).toNat
    rw [toNat_vma (by omega), hend]
    omega

/-- An argument pointer is null. -/
theorem StackBytes.argv_zero {m : HostMem} (h : StackBytes bytes elf ids n m) (hn : 0 < n)
    {w p : BitVec 64} {rest : List (BitVec 64)}
    (hstands : m.Holds (bytes + BitVec.ofNat 64 (elf.spOff n)) (wordBytes (w :: p :: rest))) :
    p = 0 := by
  have hbytes : wordBytes (w :: p :: rest) = leBytes 8 w ++ (leBytes 8 p ++ wordBytes rest) := rfl
  rw [hbytes, holds_append, holds_append, length_leBytes, offset_add] at hstands
  have hzero :=
    h.pointers.replicate (j := elf.spOff n + 8) (k := 8) bytes (Nat.le_refl _) (by omega)
  rw [← leBytes_zero] at hzero
  apply leBytes_inj
  exact hstands.2.1.unique hzero (by rw [length_leBytes, length_leBytes])

end Code

/-! ### The exact condition -/

/-- The guest is started as the ABI asks. -/
def StartsGuest (bytes : HostPtr) (elf : LiftedElf) (ids : HostIds) (args : List (List (BitVec 8)))
    (mem : HostMem) (cpu : State) : Prop :=
  ∃ area m cpu', vmaStackEntryInit bytes elf ids (BitVec.ofNat 32 args.length) mem cpu =
      (area, m, cpu') ∧
    ∃ i random, StartsProcess area m (cpu'.qword .sp) args elf.phBytes i random

/-- What the guest finds when it has no arguments. -/
def StartInfo.ofElf (elf : LiftedElf) (ids : HostIds) : StartInfo where
  argv := []
  envp := []
  auxv := (auxv64 elf ids (STACK_START_VMA + BitVec.ofNat 64 elf.phdrOff)
    (STACK_START_VMA + BitVec.ofNat 64 randomOff)).dropLast
  phdr := STACK_START_VMA + BitVec.ofNat 64 elf.phdrOff
  random := STACK_START_VMA + BitVec.ofNat 64 randomOff

section Exact

variable {bytes : HostPtr} {elf : LiftedElf} {ids : HostIds} {mem : HostMem} {cpu : State}

/-- The stack pointer is aligned. -/
theorem LiftedElf.Fits.aligned_iff {n : Nat} (h : elf.Fits n) :
    (STACK_START_VMA + BitVec.ofNat 64 (elf.spOff n)).toNat % 16 = 0 ↔
      (elf.e_phent.toNat * elf.e_phnum.toNat + 8 + 8 * n) % 16 = 0 := by
  obtain ⟨hr, hp, ha, hs⟩ := h.offsets
  have hsize : STACK_SIZE.toNat = 1048576 := by decide
  have hstart : STACK_START_VMA.toNat = 0x0fffff0000000000 := by decide
  rw [toNat_vma (by omega), hstart, ← length_phBytes]
  omega

theorem pieces_ofElf (sp : Addr) (ph random : List (BitVec 8)) :
    (StartInfo.ofElf elf ids).pieces sp [] ph random =
      [(sp, wordBytes (StartInfo.ofElf elf ids).words),
        (STACK_START_VMA + BitVec.ofNat 64 elf.phdrOff, ph),
        (STACK_START_VMA + BitVec.ofNat 64 randomOff, random)] := rfl

theorem wordBytes_ofElf : wordBytes (StartInfo.ofElf elf ids).words =
    leBytes 8 0 ++ (leBytes 8 0 ++ (leBytes 8 0 ++ wordBytes (auxvWords (auxv64 elf ids
      (STACK_START_VMA + BitVec.ofNat 64 elf.phdrOff)
      (STACK_START_VMA + BitVec.ofNat 64 randomOff))))) := rfl

theorem types_ofElf : (StartInfo.ofElf elf ids).auxv.map Prod.fst =
    [Auxv.AT_PHDR, Auxv.AT_PHENT, Auxv.AT_PHNUM, Auxv.AT_PAGESZ, Auxv.AT_ENTRY, Auxv.AT_UID,
      Auxv.AT_EUID, Auxv.AT_GID, Auxv.AT_EGID, Auxv.AT_SECURE, Auxv.AT_RANDOM] := rfl

/-- An entry of the vector, found by its type. -/
theorem mem_auxv_ofElf {e : BitVec 64 × BitVec 64} (he : e ∈ (StartInfo.ofElf elf ids).auxv)
    (p : BitVec 64) : (e.1, p) ∈ (StartInfo.ofElf elf ids).auxv ↔ p = e.2 := by
  have hnodup : ((StartInfo.ofElf elf ids).auxv.map Prod.fst).Nodup := by
    rw [types_ofElf]
    decide
  constructor
  · intro hp
    exact congrArg Prod.snd (List.inj_on_of_nodup_map hnodup hp he rfl)
  · rintro rfl
    exact he

/-- Without arguments everything stands where it should. -/
theorem LiftedElf.Fits.startsProcess (h : elf.Fits 0)
    (haligned : (STACK_START_VMA + BitVec.ofNat 64 (elf.spOff 0)).toNat % 16 = 0) :
    StartsProcess (.vmaStackEntryInit bytes) (stackMem bytes elf ids 0 mem)
      (STACK_START_VMA + BitVec.ofNat 64 (elf.spOff 0)) [] elf.phBytes (.ofElf elf ids)
      (List.replicate 16 1) := by
  -- where the four pieces start, all within the stack
  obtain ⟨hr, hp, ha, hs⟩ := h.offsets
  have hsize : STACK_SIZE.toNat = 1048576 := by decide
  have hbytes : StackBytes bytes elf ids 0 (stackMem bytes elf ids 0 mem) := h.stackBytes
  have hwords : (wordBytes (StartInfo.ofElf elf ids).words).length = 216 := by
    rw [length_wordBytes]
    rfl
  have hones : (List.replicate 16 (1 : BitVec 8)).length = 16 := List.length_replicate
  have hphdr : (Auxv.AT_PHDR, STACK_START_VMA + BitVec.ofNat 64 elf.phdrOff) ∈
      (StartInfo.ofElf elf ids).auxv := List.mem_cons_self
  have hrandom : (Auxv.AT_RANDOM, STACK_START_VMA + BitVec.ofNat 64 randomOff) ∈
      (StartInfo.ofElf elf ids).auxv := List.mem_of_getLast? rfl
  -- without arguments the two null pointers follow the count at once
  refine ⟨haligned, rfl, fun p hp => absurd hp List.not_mem_nil, fun e he hnull => ?_,
    mem_auxv_ofElf hphdr, mem_auxv_ofElf hrandom, hones, ?_, ?_⟩
  · have htype := List.mem_map_of_mem (f := Prod.fst) he
    rw [types_ofElf, hnull] at htype
    exact absurd htype (by decide)
  · -- each piece lies in the stack and holds its bytes
    intro x hx
    rw [pieces_ofElf] at hx
    simp only [List.mem_cons, List.not_mem_nil, or_false] at hx
    rcases hx with rfl | rfl | rfl
    · refine ⟨contains_vma (by rw [hwords]; omega), ?_⟩
      have hargc := hbytes.argc
      have hnulls := hbytes.pointers
      have hargv := hnulls.replicate (j := elf.spOff 0 + 8) (k := 8) bytes (by omega) (by omega)
      have henvp := hnulls.replicate (j := elf.spOff 0 + 16) (k := 8) bytes (by omega) (by omega)
      rw [← leBytes_zero] at hargv henvp
      rw [hostPtr_vma, wordBytes_ofElf, holds_append, holds_append, holds_append]
      simp only [length_leBytes, offset_add]
      refine ⟨hargc, hargv, henvp, ?_⟩
      rw [hs]
      exact hbytes.auxv
    · have hfits : elf.phdrOff + elf.phBytes.length ≤ STACK_SIZE.toNat := by omega
      refine ⟨contains_vma hfits, ?_⟩
      rw [hostPtr_vma]
      exact hbytes.phdr
    · refine ⟨contains_vma (by rw [hones]; omega), ?_⟩
      rw [hostPtr_vma]
      exact hbytes.random
  · -- from the top: the random bytes, the headers and the words do not meet
    have hvma := fun a (ha : a ≤ STACK_SIZE.toNat) => toNat_vma ha
    rw [pieces_ofElf, List.pairwise_cons, List.pairwise_cons]
    refine ⟨fun x hx => .inl ?_, fun x hx => .inl ?_, List.pairwise_singleton _ _⟩
    · simp only [List.mem_cons, List.not_mem_nil, or_false] at hx
      rcases hx with rfl | rfl
      · rw [hvma _ (by omega), hvma _ (by omega), hwords]
        omega
      · rw [hvma _ (by omega), hvma _ (by omega), hwords]
        omega
    · rw [List.mem_singleton.mp hx, hvma _ (by omega), hvma _ (by omega)]
      show _ + elf.phBytes.length ≤ _
      omega

/-- **The argument pointers are null**, so there are no arguments. -/
theorem StartsGuest.args_nil {args : List (List (BitVec 8))} (h : elf.Fits args.length)
    (hg : StartsGuest bytes elf ids args mem cpu) : args = [] := by
  obtain ⟨area, m, cpu', hrun, i, random, hi⟩ := hg
  rw [vmaStackEntryInit_eq h] at hrun
  cases hrun
  rw [State.qword_setQword] at hi
  by_contra hne
  obtain ⟨arg, rest, rfl⟩ := List.exists_cons_of_ne_nil hne
  obtain ⟨p, argv, hargv⟩ : ∃ p argv, i.argv = p :: argv := by
    apply List.exists_cons_of_ne_nil
    intro hnil
    have hlen := hi.argc
    rw [hnil] at hlen
    cases hlen
  have hvector := (hi.stands _ List.mem_cons_self).2
  rw [hostPtr_vma] at hvector
  unfold StartInfo.words at hvector
  rw [hargv] at hvector
  have hbytes : StackBytes bytes elf ids _ (stackMem bytes elf ids _ mem) := h.stackBytes
  have hzero := hbytes.argv_zero (Nat.succ_pos _) hvector
  -- a null pointer is not in the area
  have hmem : (p, arg ++ [0]) ∈ i.pieces (STACK_START_VMA + BitVec.ofNat 64
      (elf.spOff (arg :: rest).length)) (arg :: rest) elf.phBytes random := by
    unfold StartInfo.pieces
    rw [hargv]
    simp
  have harea := (hi.stands _ hmem).1.1
  rw [hzero] at harea
  have hnull : ¬ STACK_START_VMA ≤ 0 := by decide
  exact hnull harea

/-- **The guest starts as the ABI asks exactly when it has no arguments and the program headers
happen to align the stack.** -/
theorem startsGuest_iff {args : List (List (BitVec 8))} (h : elf.Fits args.length) :
    StartsGuest bytes elf ids args mem cpu ↔
      args = [] ∧ elf.e_phent.toNat * elf.e_phnum.toNat % 16 = 8 := by
  have hcode : vmaStackEntryInit bytes elf ids (BitVec.ofNat 32 args.length) mem cpu = _ :=
    vmaStackEntryInit_eq h
  constructor
  · intro hg
    have hargs := hg.args_nil h
    refine ⟨hargs, ?_⟩
    obtain ⟨area, m, cpu', hrun, i, random, hi⟩ := hg
    rw [hcode] at hrun
    cases hrun
    rw [State.qword_setQword] at hi
    have haligned := h.aligned_iff.mp hi.aligned
    rw [hargs, List.length_nil] at haligned
    omega
  · rintro ⟨rfl, hmod⟩
    have haligned := h.aligned_iff.mpr (by rw [List.length_nil]; omega)
    refine ⟨_, _, _, hcode, .ofElf elf ids, List.replicate 16 1, ?_⟩
    rw [State.qword_setQword]
    exact h.startsProcess haligned

/-- A program with nine headers of 56 bytes. -/
def LiftedElf.sample : LiftedElf := ⟨56, 9, fun _ => 0, 0x400000⟩

theorem LiftedElf.fits_sample {n : Nat} (h : n ≤ 1) : LiftedElf.sample.Fits n := by
  unfold LiftedElf.Fits
  rw [length_phBytes]
  have hsize : STACK_SIZE.toNat = 1048576 := by decide
  have hph : sample.e_phent.toNat * sample.e_phnum.toNat = 504 := by decide
  omega

/-- Without arguments. -/
theorem startsGuest_sample :
    StartsGuest 0 .sample .wasi [] (fun _ => 0) ⟨fun _ => 0, fun _ => 0, 0⟩ :=
  (startsGuest_iff (LiftedElf.fits_sample (by decide))).mpr ⟨rfl, by decide⟩

/-- With the name of the program. -/
theorem not_startsGuest_sample :
    ¬ StartsGuest 0 .sample .wasi [[0x61]] (fun _ => 0) ⟨fun _ => 0, fun _ => 0, 0⟩ := by
  intro h
  have hargs := h.args_nil (LiftedElf.fits_sample (by decide))
  cases hargs

end Exact

end Elfconv
