/-
Elfconv/Lib/Arena.lean

A bump allocator that shares its cursor with a program break.

The arena is the interval `[lo, hi)`.  `alloc len` hands out `[cur, cur + len)` and moves
the cursor to its end; `setBreak b` moves the cursor to `b` and makes `b` the break in
force.  Nothing is ever taken back, so the ranges handed out only grow in number.

`Sound` is what a client relies on.  Since `setBreak` may move the cursor below ranges
already handed out, neither operation keeps it by itself: `sound_alloc_iff` and
`sound_setBreak_iff` say exactly when they do, given where the cursor lies between the
ranges (`Placed`).
-/
import Mathlib

/-- The cursor, the ranges handed out (start and length, newest first), and the break in
force. -/
structure Arena where
  cur : Nat
  ranges : List (Nat × Nat)
  brk : Option Nat

namespace Arena

/-- A range is taken at the cursor, which moves behind it. -/
def alloc (a : Arena) (len : Nat) : Arena := ⟨a.cur + len, (a.cur, len) :: a.ranges, a.brk⟩

/-- The cursor is put at the break. -/
def setBreak (a : Arena) (b : Nat) : Arena := ⟨b, a.ranges, some b⟩

/-- The addresses of a range. -/
def extent (r : Nat × Nat) : Set Nat := Set.Ico r.1 (r.1 + r.2)

/-- What clients of the arena `[lo, hi)` with the given page size rely on. -/
structure Sound (lo hi page : Nat) (a : Arena) : Prop where
  cur_mem : a.cur ∈ Set.Ico lo hi
  aligned : ∀ r ∈ a.ranges, page ∣ r.1
  inside : ∀ r ∈ a.ranges, lo ≤ r.1 ∧ r.1 + r.2 ≤ hi
  disjoint : a.ranges.Pairwise fun r s => Disjoint (extent r) (extent s)
  aboveBreak : ∀ b ∈ a.brk, ∀ r ∈ a.ranges, Disjoint (Set.Iio b) (extent r)

/-- The cursor lies inside no range, and not below the break in force. -/
structure Placed (a : Arena) : Prop where
  ranges : ∀ r ∈ a.ranges, 0 < r.2 → r.1 + r.2 ≤ a.cur ∨ a.cur ≤ r.1
  brk : ∀ b ∈ a.brk, b ≤ a.cur

/-- When an allocation is harmless: the cursor is a page multiple, the range ends inside
the arena, and no nonempty range starts in it. -/
structure AllocOk (hi page : Nat) (a : Arena) (len : Nat) : Prop where
  cur_aligned : page ∣ a.cur
  fits : a.cur + len < hi
  free : ∀ r ∈ a.ranges, 0 < r.2 → ¬ (a.cur ≤ r.1 ∧ r.1 < a.cur + len)

/-- When a break is harmless: no nonempty range starts below it. -/
def BreakOk (a : Arena) (b : Nat) : Prop := ∀ r ∈ a.ranges, 0 < r.2 → b ≤ r.1

variable {lo hi page : Nat} {a : Arena}

/-- Two ranges are disjoint when one is empty or ends before the other starts. -/
theorem disjoint_extent {r s : Nat × Nat} :
    Disjoint (extent r) (extent s) ↔
      r.2 = 0 ∨ s.2 = 0 ∨ r.1 + r.2 ≤ s.1 ∨ s.1 + s.2 ≤ r.1 := by
  rw [extent, extent, Set.Ico_disjoint_Ico]
  omega

/-- A range is above a break when it is empty or starts there or later. -/
theorem disjoint_Iio_extent {b : Nat} {r : Nat × Nat} :
    Disjoint (Set.Iio b) (extent r) ↔ (0 < r.2 → b ≤ r.1) := by
  rw [Set.disjoint_left]
  constructor
  · intro h hpos
    by_contra hlt
    exact h (show r.1 < b by omega) ⟨le_rfl, by omega⟩
  · rintro h x (hx : x < b) ⟨h₁, h₂⟩
    have := h (by omega)
    omega

/-- **An allocation keeps soundness exactly when it is harmless.** -/
theorem sound_alloc_iff (hs : Sound lo hi page a) (hp : Placed a) {len : Nat} :
    Sound lo hi page (a.alloc len) ↔ AllocOk hi page a len := by
  constructor
  · intro h
    refine ⟨h.aligned (a.cur, len) List.mem_cons_self, h.cur_mem.2, fun r hr hpos hin => ?_⟩
    have hdis := (List.pairwise_cons.mp h.disjoint).1 r hr
    have hcases := disjoint_extent.mp hdis
    simp only at hcases
    omega
  · intro h
    obtain ⟨hlo, -⟩ := hs.cur_mem
    refine ⟨⟨by simp only [alloc]; omega, h.fits⟩, ?_, ?_, ?_, ?_⟩
    · exact List.forall_mem_cons.mpr ⟨h.cur_aligned, hs.aligned⟩
    · exact List.forall_mem_cons.mpr ⟨⟨hlo, h.fits.le⟩, hs.inside⟩
    · refine List.pairwise_cons.mpr ⟨fun r hr => disjoint_extent.mpr ?_, hs.disjoint⟩
      -- the cursor is outside `r`, so only a start inside the new range could meet it
      have hfree := h.free r hr
      have hplaced := hp.ranges r hr
      simp only
      omega
    · intro b hb
      refine List.forall_mem_cons.mpr ⟨?_, hs.aboveBreak b hb⟩
      exact disjoint_Iio_extent.mpr fun _ => hp.brk b hb

/-- A harmless allocation leaves the cursor between the ranges. -/
theorem placed_alloc (hp : Placed a) {len : Nat} (h : AllocOk hi page a len) :
    Placed (a.alloc len) := by
  refine ⟨List.forall_mem_cons.mpr ⟨fun _ => .inl le_rfl, fun r hr hpos => ?_⟩,
    fun b hb => (hp.brk b hb).trans (Nat.le_add_right _ _)⟩
  have hfree := h.free r hr hpos
  have hplaced := hp.ranges r hr hpos
  simp only [alloc]
  omega

/-- **A break keeps soundness exactly when it is harmless.** -/
theorem sound_setBreak_iff (hs : Sound lo hi page a) {b : Nat} (hb : b ∈ Set.Ico lo hi) :
    Sound lo hi page (a.setBreak b) ↔ BreakOk a b := by
  constructor
  · intro h r hr
    exact disjoint_Iio_extent.mp (h.aboveBreak b rfl r hr)
  · intro h
    refine ⟨hb, hs.aligned, hs.inside, hs.disjoint, ?_⟩
    rintro b' ⟨⟩ r hr
    exact disjoint_Iio_extent.mpr (h r hr)

/-- A harmless break leaves the cursor between the ranges. -/
theorem placed_setBreak {b : Nat} (h : BreakOk a b) : Placed (a.setBreak b) := by
  refine ⟨fun r hr hpos => .inr (h r hr hpos), ?_⟩
  rintro b' ⟨⟩
  exact le_rfl

end Arena
