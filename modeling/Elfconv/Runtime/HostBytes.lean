/-
Elfconv/Runtime/HostBytes.lean

Reads of host memory after writes.

A buffer is a host pointer; a place in it is an offset from the pointer.  `Holds` says that the
bytes of a list stand at a place.
-/
import Elfconv.Runtime.Machine

namespace Elfconv

namespace HostMem

variable {m m' : HostMem} {p q dst : HostPtr} {bs cs : List (BitVec 8)} {i j n : Nat}

/-! ### Offsets -/

theorem sub_offset (b : HostPtr) (hij : i ≤ j) (hj : j < 2 ^ 64) :
    (b + BitVec.ofNat 64 j - (b + BitVec.ofNat 64 i)).toNat = j - i := by
  rw [BitVec.toNat_sub, BitVec.toNat_add, BitVec.toNat_add, BitVec.toNat_ofNat, BitVec.toNat_ofNat]
  have hb := b.isLt
  omega

theorem sub_offset_of_lt (b : HostPtr) (hji : j < i) (hi : i < 2 ^ 64) :
    (b + BitVec.ofNat 64 j - (b + BitVec.ofNat 64 i)).toNat = 2 ^ 64 - (i - j) := by
  rw [BitVec.toNat_sub, BitVec.toNat_add, BitVec.toNat_add, BitVec.toNat_ofNat, BitVec.toNat_ofNat]
  have hb := b.isLt
  omega

theorem offset_add (b : HostPtr) (i j : Nat) :
    b + BitVec.ofNat 64 i + BitVec.ofNat 64 j = b + BitVec.ofNat 64 (i + j) := by
  rw [BitVec.add_assoc, BitVec.ofNat_add]

/-! ### Writes -/

/-- A byte of what is written. -/
theorem write_of_lt (h : (p - dst).toNat < bs.length) :
    m.write dst bs p = bs[(p - dst).toNat] := dif_pos h

/-- A byte beyond what is written. -/
theorem write_of_le (h : bs.length ≤ (p - dst).toNat) : m.write dst bs p = m p :=
  dif_neg (Nat.not_lt_of_le h)

/-- A byte that is written. -/
theorem write_offset (b : HostPtr) (hij : i ≤ j) (hj : j < 2 ^ 64) (h : j - i < bs.length) :
    m.write (b + BitVec.ofNat 64 i) bs (b + BitVec.ofNat 64 j) = bs[j - i] := by
  have hsub := sub_offset b hij hj
  rw [write_of_lt (by rw [hsub]; exact h)]
  congr 1

/-- A byte before or after those that are written. -/
theorem write_offset_of_apart (b : HostPtr) (hi : i + bs.length ≤ 2 ^ 64) (hj : j < 2 ^ 64)
    (h : j < i ∨ i + bs.length ≤ j) :
    m.write (b + BitVec.ofNat 64 i) bs (b + BitVec.ofNat 64 j) = m (b + BitVec.ofNat 64 j) := by
  apply write_of_le
  by_cases hij : i ≤ j
  · rw [sub_offset b hij hj]
    omega
  · by_cases hi' : i < 2 ^ 64
    · rw [sub_offset_of_lt b (Nat.lt_of_not_le hij) hi']
      omega
    · have hempty : bs.length = 0 := by omega
      rw [hempty]
      exact Nat.zero_le _

/-! ### What stands at a place -/

/-- The bytes stand from the place upward. -/
def Holds (m : HostMem) (p : HostPtr) (bs : List (BitVec 8)) : Prop := m.read p bs.length = bs

/-- Memory holds the bytes one by one. -/
theorem holds_iff :
    m.Holds p bs ↔ ∀ i, (h : i < bs.length) → m (p + BitVec.ofNat 64 i) = bs[i] := by
  unfold Holds HostMem.read
  constructor
  · intro h i hi
    have hget := congrArg (·[i]?) h
    simpa [hi] using hget
  · intro h
    apply List.ext_getElem
    · simp
    · intro i hi hi'
      rw [List.getElem_map, List.getElem_range]
      exact h i hi'

/-- Memory holds two lists, the second behind the first. -/
theorem holds_append :
    m.Holds p (bs ++ cs) ↔ m.Holds p bs ∧ m.Holds (p + BitVec.ofNat 64 bs.length) cs := by
  simp only [holds_iff, List.length_append]
  constructor
  · intro h
    refine ⟨fun i hi => ?_, fun i hi => ?_⟩
    · rw [h i (by omega), List.getElem_append_left]
    · rw [offset_add, h (bs.length + i) (by omega), List.getElem_append_right (by omega)]
      congr 1
      omega
  · rintro ⟨hl, hr⟩ i hi
    by_cases hlt : i < bs.length
    · rw [hl i hlt, List.getElem_append_left]
    · have hi' := hr (i - bs.length) (by omega)
      rw [offset_add, show bs.length + (i - bs.length) = i by omega] at hi'
      rw [hi', List.getElem_append_right (by omega)]

/-- What has been written stands there. -/
theorem holds_write (b : HostPtr) (h : i + bs.length ≤ 2 ^ 64) :
    (m.write (b + BitVec.ofNat 64 i) bs).Holds (b + BitVec.ofNat 64 i) bs := by
  rw [holds_iff]
  intro k hk
  rw [offset_add, write_offset b (Nat.le_add_right i k) (by omega) (by omega)]
  congr 1
  omega

/-- What stands elsewhere stays. -/
theorem holds_write_apart (b : HostPtr) (hi : i + bs.length ≤ 2 ^ 64) (hj : j + cs.length ≤ 2 ^ 64)
    (h : j + cs.length ≤ i ∨ i + bs.length ≤ j) :
    (m.write (b + BitVec.ofNat 64 i) bs).Holds (b + BitVec.ofNat 64 j) cs ↔
      m.Holds (b + BitVec.ofNat 64 j) cs := by
  simp only [holds_iff]
  refine forall_congr' fun k => forall_congr' fun hk => ?_
  rw [offset_add, write_offset_of_apart b hi (by omega) (by omega)]

/-- A part of what stands at a place. -/
theorem Holds.replicate {v : BitVec 8} {k : Nat} (b : HostPtr)
    (h : m.Holds (b + BitVec.ofNat 64 i) (List.replicate n v)) (hij : i ≤ j) (hj : j + k ≤ i + n) :
    m.Holds (b + BitVec.ofNat 64 j) (List.replicate k v) := by
  rw [holds_iff] at *
  intro l hl
  rw [List.length_replicate] at hl
  have hbyte := h (j - i + l) (by rw [List.length_replicate]; omega)
  rw [offset_add, show i + (j - i + l) = j + l by omega, List.getElem_replicate] at hbyte
  rw [offset_add, List.getElem_replicate]
  exact hbyte

/-- What memory holds at a place is determined by its length. -/
theorem Holds.unique (h : m.Holds p bs) (h' : m.Holds p cs) (hlen : bs.length = cs.length) :
    bs = cs := by
  rw [← h, ← h', hlen]

/-! ### Words -/

@[simp] theorem length_leBytes (n : Nat) (v : BitVec 64) : (leBytes n v).length = n := by
  simp [leBytes]

theorem leBytes_zero (n : Nat) : leBytes n 0 = List.replicate n 0 := by
  apply List.ext_getElem
  · simp
  · intro i hi hi'
    simp [leBytes]

/-- A word is determined by its eight bytes. -/
theorem leBytes_inj {v v' : BitVec 64} (h : leBytes 8 v = leBytes 8 v') : v = v' := by
  apply BitVec.eq_of_getLsbD_eq
  intro i hi
  have hget := congrArg (·[i / 8]?) h
  have hlt : i / 8 < 8 := by omega
  simp only [leBytes, List.getElem?_map, List.getElem?_range hlt, Option.map_some,
    Option.some.injEq] at hget
  have hbit := congrArg (BitVec.getLsbD · (i % 8)) hget
  simp only [BitVec.getLsbD_extractLsb', show i % 8 < 8 by omega, decide_true, Bool.true_and,
    show 8 * (i / 8) + i % 8 = i by omega] at hbit
  exact hbit

end HostMem

end Elfconv
