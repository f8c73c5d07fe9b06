/-
Elfconv/Lib/ByteMemory.lean

Words in a memory of bytes, the lowest byte first.

The addresses wrap around.  A place is in the range of a word by its distance from the word's
address, so that a store is one comparison and a word over the end of the memory needs no case of
its own.
-/
import Elfconv.Lib.Lanes

namespace ByteMemory

open Lanes

variable {a n m : ℕ}

/-- The word of the `n` bytes from an address on. -/
def load (n : ℕ) (mem : BitVec a → BitVec 8) (addr : BitVec a) : BitVec (n * 8) :=
  Vec.bits fun i : Fin n => mem (addr + BitVec.ofNat a i)

/-- The memory with a word stored at an address. -/
def store (n : ℕ) (mem : BitVec a → BitVec 8) (addr : BitVec a) (x : BitVec (n * 8)) :
    BitVec a → BitVec 8 := fun p =>
  if (p - addr).toNat < n then x.extractLsb' (8 * (p - addr).toNat) 8 else mem p

/-- The words that follow each other from an address on. -/
def loadWords (n : ℕ) (mem : BitVec a → BitVec 8) (addr : BitVec a) : ℕ → List (BitVec (n * 8))
  | 0 => []
  | k + 1 => load n mem addr :: loadWords n mem (addr + BitVec.ofNat a n) k

/-- Words are stored one behind the other. -/
def storeWords (n : ℕ) (mem : BitVec a → BitVec 8) (addr : BitVec a) :
    List (BitVec (n * 8)) → BitVec a → BitVec 8
  | [] => mem
  | x :: xs => storeWords n (store n mem addr x) (addr + BitVec.ofNat a n) xs

section

variable {mem : BitVec a → BitVec 8} {addr p : BitVec a}

theorem length_loadWords (mem : BitVec a → BitVec 8) (k : ℕ) :
    ∀ addr, (loadWords n mem addr k).length = k := by
  induction k with
  | zero => exact fun _ => rfl
  | succ k ih => exact fun addr => congrArg (· + 1) (ih _)

/-- A place outside the word keeps its byte. -/
theorem store_of_le (x : BitVec (n * 8)) (h : n ≤ (p - addr).toNat) :
    store n mem addr x p = mem p :=
  if_neg h.not_gt

/-- A place among `n` bytes has its offset. -/
theorem toNat_offset (hn : n ≤ 2 ^ a) (i : Fin n) :
    (addr + BitVec.ofNat a i - addr).toNat = i.val := by
  rw [add_sub_cancel_left, BitVec.toNat_ofNat, Nat.mod_eq_of_lt (i.isLt.trans_le hn)]

/-- A byte of the word. -/
theorem store_offset (hn : n ≤ 2 ^ a) (x : BitVec (n * 8)) (i : Fin n) :
    store n mem addr x (addr + BitVec.ofNat a i) = x.extractLsb' (8 * i) 8 := by
  unfold store
  rw [toNat_offset hn, if_pos i.isLt]

/-- What is stored is loaded again. -/
theorem load_store (hn : n ≤ 2 ^ a) (mem : BitVec a → BitVec 8) (addr : BitVec a)
    (x : BitVec (n * 8)) : load n (store n mem addr x) addr = x := by
  have hbytes : (fun i : Fin n => store n mem addr x (addr + BitVec.ofNat a i)) =
      (Vec.ofBits n x : Vec n 8) := funext fun i => store_offset hn x i
  unfold load
  rw [hbytes, Vec.bits_ofBits, BitVec.setWidth_eq]

/-- Different words leave different memories. -/
theorem store_inj (hn : n ≤ 2 ^ a) {x y : BitVec (n * 8)} :
    store n mem addr x = store n mem addr y ↔ x = y := by
  constructor
  · intro h
    rw [← load_store hn mem addr x, h, load_store hn]
  · exact fun h => h ▸ rfl

/-- A place behind the words keeps its byte. -/
theorem storeWords_of_le (xs : List (BitVec (n * 8))) :
    ∀ (mem : BitVec a → BitVec 8) (addr : BitVec a),
      n * xs.length ≤ (p - addr).toNat → storeWords n mem addr xs p = mem p := by
  induction xs with
  | nil => exact fun _ _ _ => rfl
  | cons x xs ih =>
    intro mem addr h
    rw [List.length_cons, Nat.mul_succ] at h
    have hstep : n * xs.length ≤ (p - (addr + BitVec.ofNat a n)).toNat := by
      have hlt : n < 2 ^ a := by
        have := (p - addr).isLt
        by_contra hn
        omega
      have hsub : p - (addr + BitVec.ofNat a n) = p - addr - BitVec.ofNat a n :=
        sub_add_eq_sub_sub _ _ _
      have hle : (BitVec.ofNat a n).toNat ≤ (p - addr).toNat := by
        rw [BitVec.toNat_ofNat, Nat.mod_eq_of_lt hlt]
        omega
      rw [hsub, BitVec.toNat_sub_of_le hle, BitVec.toNat_ofNat, Nat.mod_eq_of_lt hlt]
      omega
    show storeWords n (store n mem addr x) (addr + BitVec.ofNat a n) xs p = mem p
    rw [ih _ _ hstep, store_of_le x (by omega)]

/-- The words that were stored, where they do not meet around the end of the memory. -/
theorem loadWords_storeWords (xs : List (BitVec (n * 8))) :
    ∀ (mem : BitVec a → BitVec 8) (addr : BitVec a), n * xs.length ≤ 2 ^ a →
      loadWords n (storeWords n mem addr xs) addr xs.length = xs := by
  induction xs with
  | nil => exact fun _ _ _ => rfl
  | cons x xs ih =>
    intro mem addr h
    rw [List.length_cons, Nat.mul_succ] at h
    have hn : n ≤ 2 ^ a := by omega
    -- the words after it leave the first one
    have hbyte : ∀ i : Fin n, storeWords n (store n mem addr x) (addr + BitVec.ofNat a n) xs
        (addr + BitVec.ofNat a i) = store n mem addr x (addr + BitVec.ofNat a i) := by
      intro i
      refine storeWords_of_le xs _ _ ?_
      have hi := i.isLt
      have hsub : addr + BitVec.ofNat a i - (addr + BitVec.ofNat a n) =
          BitVec.ofNat a i - BitVec.ofNat a n := add_sub_add_left_eq_sub _ _ _
      rcases Nat.eq_or_lt_of_le hn with heq | hlt
      · have hxs : n * xs.length = 0 := by omega
        rw [hxs]
        exact Nat.zero_le _
      · rw [hsub, BitVec.toNat_sub, BitVec.toNat_ofNat, BitVec.toNat_ofNat,
          Nat.mod_eq_of_lt hlt, Nat.mod_eq_of_lt (hi.trans hlt), Nat.mod_eq_of_lt (by omega)]
        omega
    have hfirst :
        load n (storeWords n (store n mem addr x) (addr + BitVec.ofNat a n) xs) addr = x :=
      calc load n (storeWords n (store n mem addr x) (addr + BitVec.ofNat a n) xs) addr
        _ = load n (store n mem addr x) addr := congrArg Vec.bits (funext hbyte)
        _ = x := load_store hn mem addr x
    show load n (storeWords n (store n mem addr x) (addr + BitVec.ofNat a n) xs) addr ::
      loadWords n (storeWords n (store n mem addr x) (addr + BitVec.ofNat a n) xs)
        (addr + BitVec.ofNat a n) xs.length = x :: xs
    rw [hfirst, ih _ _ (by omega)]

/-- Different lists of words leave different memories, unless they wrap around. -/
theorem storeWords_inj {xs ys : List (BitVec (n * 8))} (hlen : n * xs.length ≤ 2 ^ a)
    (heq : xs.length = ys.length) (h : storeWords n mem addr xs = storeWords n mem addr ys) :
    xs = ys := by
  rw [← loadWords_storeWords xs mem addr hlen, h, heq]
  exact loadWords_storeWords ys mem addr (heq ▸ hlen)

end

end ByteMemory
