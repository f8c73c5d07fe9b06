/-
Elfconv/Semantics/LaterReads.lean

Later reads of a register that a load has written.

On its way to a read the value is cut where it passes a phi node of a narrow class, and it is left
behind where its register is not handed on: then the read finds what `CPUState` held.  How many bits
are left of which of the two is settled by the path (`Kept`), and `Tracks` says that the program
holds nothing else.
-/
import Elfconv.Semantics.LoadsArm
import Elfconv.VirtualRegs.DrvdClass

namespace Elfconv.AArch64

/-! ### Paths -/

/-- A point of a run: in a block of an optimised function, with the registers of `CPUState`, or in a
function that stores its results at once. -/
inductive Point
  | block (cpu : RegFile) (s : BlockState)
  | stored (g : Guest)

/-- A lifted function, or `emulate_system_call`. -/
inductive Callee
  | lifted | svc

namespace Callee

/-- The registers that are stored for the call. -/
def passes (er : EcvReg) : Callee → Bool
  | lifted => er.CheckPassedArgsRegs
  | svc => er.number < 6 || er.number == 8

/-- The registers that are loaded after it. -/
def returns (er : EcvReg) : Callee → Bool
  | lifted => er.CheckPassedReturnRegs
  | svc => er.number == 0

end Callee

/-- A step of a run: over an instruction, into the next block with its phi nodes, into a callee, or
over a call, by what the callee does. A relay block is entered like any other. -/
inductive Step
  | inst (p : PlainInst)
  | enter (drvd : EcvReg → Option ERC)
  | into (indirectbr : Bool)
  | across (c : Callee) (callee : Guest → Guest)

/-- An instruction on stored registers. -/
def PlainInst.execStored (p : PlainInst) (g : Guest) : Guest :=
  let (sema, mem) := p.sema (p.loads.map fun a => .low a.2 (g.regs a.1)) g.mem
  ⟨storeEach g.regs p.writes ((List.range p.writes.length).map sema), mem⟩

/-- `CPUState` with the registers stored that are passed. -/
def Cache.pass (c : Callee) (cpu : RegFile) (cur : Cache) : RegFile := fun er =>
  if c.passes er then (cur er).elim (cpu er) fun v => (castFromInst v (wholeERC er)).whole
  else cpu er

namespace Point

/-- The start of a function. -/
def entry (g : Guest) (indirectbr : Bool) : Point :=
  if indirectbr then stored g else block g.regs (.start (fun _ => none) g)

/-- Where a step leads. -/
def step : Point → Step → Point
  | block cpu s, .inst p => block cpu (p.exec cpu s)
  | block cpu s, .enter drvd =>
      block cpu { s with
        cur := fun er => (drvd er).map fun erc => (Cache.load cpu s.cur er erc).1 }
  | block cpu s, .into indirectbr => entry ⟨s.cur.pass .lifted cpu, s.mem⟩ indirectbr
  | block cpu s, .across c callee =>
      let g := callee ⟨s.cur.pass c cpu, s.mem⟩
      block g.regs
        { cur := fun er =>
            if c.returns er then (s.cur er).map fun _ => .low (wholeERC er) (g.regs er)
            else s.cur er
          mem := g.mem
          regs := (callee s.guest).regs }
  | stored g, .inst p => stored (p.execStored g)
  | stored g, .enter _ => stored g
  | stored g, .into indirectbr => entry g indirectbr
  | stored g, .across _ callee => stored (callee g)

/-- The point at the end of a path. -/
def follow (p : Point) (path : List Step) : Point := path.foldl step p

/-- A decoded instruction at the point. -/
def exec (sema : Sema) (inst : SemaInst) : Point → Option Point
  | block cpu s => (s.exec cpu sema inst).map (block cpu)
  | stored g => (execInst true sema inst g).map stored

/-- The registers as an instruction reads them that loads these. -/
def guest (loads : List (EcvReg × ERC)) : Point → Guest
  | block cpu s => ⟨(s.cur.touch cpu loads).regs cpu, s.mem⟩
  | stored g => g

/-- The registers of `CPUState`. -/
def cpu : Point → RegFile
  | block cpu _ => cpu
  | stored g => g.regs

/-- The value of a read. -/
def read (er : EcvReg) (erc : ERC) : Point → Value
  | block cpu s => (Cache.load cpu s.cur er erc).1
  | stored g => .low erc (g.regs er)

end Point

/-- The step does not write the register. -/
def Step.Spares (er : EcvReg) : Step → Prop
  | inst p => er ∉ p.writes
  | enter _ | into _ => True
  | across _ callee => ∀ g, (callee g).regs er = g.regs er

/-! ### What is left of a value -/

/-- The low bits of the value that was loaded, or of what `CPUState` held before. -/
structure Kept where
  loaded : Bool
  bits : ℕ

namespace Kept

/-- What a register of `n` bits keeps of the value. -/
def cut (k : Kept) (n : ℕ) : Kept := ⟨k.loaded, min k.bits n⟩

/-- The value, from the one that was loaded and the one before it. -/
def value (k : Kept) (z old : BitVec 64) : BitVec 64 :=
  ((if k.loaded then z else old).setWidth k.bits).setWidth 64

theorem value_whole (z old : BitVec 64) : value ⟨true, 64⟩ z old = z :=
  (BitVec.setWidth_eq _).trans (BitVec.setWidth_eq z)

theorem value_old (z old : BitVec 64) : value ⟨false, 64⟩ z old = old :=
  (BitVec.setWidth_eq _).trans (BitVec.setWidth_eq old)

theorem value_cut {w n : ℕ} {k : Kept} {x : BitVec w} {z old : BitVec 64}
    (h : x.setWidth 64 = k.value z old) : (x.setWidth n).setWidth 64 = (k.cut n).value z old := by
  apply BitVec.eq_of_getLsbD_eq
  intro i hi
  have hbit := congrArg (fun y => BitVec.getLsbD y i) h
  simp only [value, BitVec.getLsbD_setWidth, hi, decide_true, Bool.true_and] at hbit
  simp only [value, cut, BitVec.getLsbD_setWidth, hi, decide_true, Bool.true_and, hbit, lt_min_iff,
    Bool.decide_and, Bool.and_assoc]
  exact Bool.and_left_comm ..

end Kept

/-- What is left in `CPUState` and in the map. -/
inductive Track
  | block (cpu : Kept) (cur : Option Kept)
  | stored (cpu : Kept)

namespace Track

variable (er : EcvReg)

/-- A function starts without a map. -/
def entry (cpu : Kept) (indirectbr : Bool) : Track :=
  if indirectbr then stored cpu else block cpu none

/-- `CPUState` after the registers that are passed. -/
def pass (c : Callee) (cpu : Kept) (cur : Option Kept) : Kept :=
  if c.passes er then cur.getD cpu else cpu

/-- What a step leaves of the value. -/
def step : Track → Step → Track
  | block cpu cur, .inst p =>
      block cpu (cur.or ((firstClass er p.loads).map fun erc => cpu.cut (ERCSize erc)))
  | block cpu cur, .enter drvd =>
      block cpu ((drvd er).map fun erc => (cur.getD cpu).cut (ERCSize erc))
  | block cpu cur, .into indirectbr => entry (pass er .lifted cpu cur) indirectbr
  | block cpu cur, .across c _ =>
      block (pass er c cpu cur) (if c.returns er then cur.map fun _ => pass er c cpu cur else cur)
  | stored cpu, .into indirectbr => entry cpu indirectbr
  | stored cpu, .inst _ | stored cpu, .enter _ | stored cpu, .across _ _ => stored cpu

/-- What is left at the end of a path. -/
def follow (t : Track) (path : List Step) : Track := path.foldl (step er) t

/-- What a read by the whole class gives. -/
def read : Track → Kept
  | block cpu cur => cur.getD cpu
  | stored cpu => cpu

/-- Behind the load its value is in the map, or in `CPUState`. -/
def start : Point → Track
  | .block _ _ => block ⟨false, 64⟩ (some ⟨true, 64⟩)
  | .stored _ => stored ⟨true, 64⟩

end Track

/-- The register holds what is left, of `z` that was loaded and of `old`. -/
def Tracks (er : EcvReg) (z old : BitVec 64) : Point → Track → Prop
  | .block cpu s, .block kcpu kcur => (cpu er).setWidth 64 = kcpu.value z old ∧
      (s.cur er).map (fun v => v.bits.setWidth 64) = kcur.map fun k => k.value z old
  | .stored g, .stored k => (g.regs er).setWidth 64 = k.value z old
  | .block _ _, .stored _ | .stored _, .block _ _ => False

section

variable {er : EcvReg} {z old : BitVec 64} {p : Point} {t : Track}

theorem tracks_entry {g : Guest} {k : Kept} (h : (g.regs er).setWidth 64 = k.value z old)
    (indirectbr : Bool) : Tracks er z old (.entry g indirectbr) (.entry k indirectbr) := by
  cases indirectbr with
  | true => exact h
  | false => exact ⟨h, rfl⟩

/-- Every load of a register is cut from one value, in the map or in `CPUState`. -/
theorem exists_source {cpu : RegFile} {cur : Cache} {kcpu : Kept} {kcur : Option Kept}
    (hcpu : (cpu er).setWidth 64 = kcpu.value z old)
    (hcur : (cur er).map (fun v => v.bits.setWidth 64) = kcur.map fun k => k.value z old) :
    ∃ w, ∃ x : BitVec w, x.setWidth 64 = (kcur.getD kcpu).value z old ∧
      ∀ erc, (Cache.load cpu cur er erc).1 = ⟨erc, x.setWidth _⟩ := by
  rcases hv : cur er with - | v
  · rw [hv] at hcur
    obtain rfl := Option.map_eq_none_iff.mp hcur.symm
    refine ⟨128, cpu er, hcpu, fun erc => ?_⟩
    rw [Cache.load_of_none hv]
    rfl
  · rw [hv] at hcur
    obtain ⟨k, rfl, hk⟩ := Option.map_eq_some_iff.mp hcur.symm
    refine ⟨_, v.bits, hk.symm, fun erc => ?_⟩
    rw [Cache.load_of_some hv, castFromInst_eq]

/-- A read gives what is left. -/
theorem Tracks.read (h : Tracks er z old p t) {erc : ERC} (herc : ERCSize erc ≤ 64) :
    p.read er erc = ⟨erc, (t.read.value z old).setWidth _⟩ := by
  cases p with
  | stored g =>
    cases t with
    | block => exact False.elim h
    | stored k =>
      have hk : (g.regs er).setWidth 64 = k.value z old := h
      show Value.low erc (g.regs er) = ⟨erc, (k.value z old).setWidth _⟩
      rw [← hk, BitVec.setWidth_setWidth_of_le _ herc]
      rfl
  | block cpu b =>
    cases t with
    | stored => exact False.elim h
    | block kcpu kcur =>
      obtain ⟨w, x, hx, hload⟩ := exists_source h.1 h.2
      show (Cache.load cpu b.cur er erc).1 = ⟨erc, ((kcur.getD kcpu).value z old).setWidth _⟩
      rw [hload, ← hx, BitVec.setWidth_setWidth_of_le _ herc]

theorem wholeERC_general (hgen : er.reg_kind = .General) : wholeERC er = .RegX := by
  unfold wholeERC
  rw [hgen]

/-- What is passed to a callee. -/
theorem tracks_pass (c : Callee) {cpu : RegFile} {cur : Cache} {kcpu : Kept} {kcur : Option Kept}
    (hgen : er.reg_kind = .General) (hcpu : (cpu er).setWidth 64 = kcpu.value z old)
    (hcur : (cur er).map (fun v => v.bits.setWidth 64) = kcur.map fun k => k.value z old) :
    (cur.pass c cpu er).setWidth 64 = (Track.pass er c kcpu kcur).value z old := by
  unfold Cache.pass Track.pass
  by_cases hc : c.passes er = true
  · rw [if_pos hc, if_pos hc]
    rcases hv : cur er with - | v
    · rw [hv] at hcur
      obtain rfl := Option.map_eq_none_iff.mp hcur.symm
      exact hcpu
    · rw [hv] at hcur
      obtain ⟨k, rfl, hk⟩ := Option.map_eq_some_iff.mp hcur.symm
      show (castFromInst v (wholeERC er)).whole.setWidth 64 = k.value z old
      rw [castFromInst_eq, wholeERC_general hgen]
      have hwhole : ((v.bits.setWidth 64).setWidth 128).setWidth 64 = v.bits.setWidth 64 := by
        rw [BitVec.setWidth_setWidth_of_le _ (by decide), BitVec.setWidth_eq]
      exact hwhole.trans hk.symm
  · rw [if_neg hc, if_neg hc]
    exact hcpu

/-- A step keeps what is known of a register that it spares. -/
theorem Tracks.step (h : Tracks er z old p t) (hgen : er.reg_kind = .General) {s : Step}
    (hs : s.Spares er) : Tracks er z old (p.step s) (t.step er s) := by
  cases p with
  | stored g =>
    cases t with
    | block => exact False.elim h
    | stored k =>
      cases s with
      | inst p =>
        have hkept : (p.execStored g).regs er = g.regs er := storeEach_of_notMem hs
        show ((p.execStored g).regs er).setWidth 64 = _
        rw [hkept]
        exact h
      | enter drvd => exact h
      | into indirectbr => exact tracks_entry h indirectbr
      | across c callee =>
        show ((callee g).regs er).setWidth 64 = _
        rw [hs g]
        exact h
  | block cpu b =>
    cases t with
    | stored => exact False.elim h
    | block kcpu kcur =>
      obtain ⟨hcpu, hcur⟩ := h
      cases s with
      | inst p =>
        refine ⟨hcpu, ?_⟩
        show ((p.exec cpu b).cur er).map _ = _
        rw [((effect_plain cpu p b).kept er hs).1, Cache.touch_eq]
        rcases hv : b.cur er with - | v
        · rw [hv] at hcur
          obtain rfl := Option.map_eq_none_iff.mp hcur.symm
          -- the first load of the block takes what `CPUState` holds
          rcases firstClass er p.loads with - | erc
          · rfl
          · exact congrArg some (Kept.value_cut hcpu)
        · rw [hv] at hcur
          obtain ⟨k, rfl, hk⟩ := Option.map_eq_some_iff.mp hcur.symm
          exact congrArg some hk.symm
      | enter drvd =>
        obtain ⟨w, x, hx, hload⟩ := exists_source hcpu hcur
        refine ⟨hcpu, ?_⟩
        show ((drvd er).map fun erc => (Cache.load cpu b.cur er erc).1).map _ =
          ((drvd er).map fun erc => (kcur.getD kcpu).cut (ERCSize erc)).map _
        rcases drvd er with - | erc
        · rfl
        · show some ((Cache.load cpu b.cur er erc).1.bits.setWidth 64) = some _
          rw [hload]
          exact congrArg some (Kept.value_cut hx)
      | into indirectbr => exact tracks_entry (tracks_pass .lifted hgen hcpu hcur) indirectbr
      | across c callee =>
        have hpass : ((callee ⟨b.cur.pass c cpu, b.mem⟩).regs er).setWidth 64 =
            (Track.pass er c kcpu kcur).value z old := by
          rw [hs]
          exact tracks_pass c hgen hcpu hcur
        refine ⟨hpass, ?_⟩
        show (if c.returns er = true then (b.cur er).map fun _ => Value.low (wholeERC er)
            ((callee ⟨b.cur.pass c cpu, b.mem⟩).regs er) else b.cur er).map _ =
          (if c.returns er = true then kcur.map fun _ => Track.pass er c kcpu kcur else kcur).map _
        by_cases hc : c.returns er = true
        · rw [if_pos hc, if_pos hc, wholeERC_general hgen]
          rcases hv : b.cur er with - | v
          · rw [hv] at hcur
            obtain rfl := Option.map_eq_none_iff.mp hcur.symm
            rfl
          · rw [hv] at hcur
            obtain ⟨k, rfl, -⟩ := Option.map_eq_some_iff.mp hcur.symm
            exact congrArg some ((BitVec.setWidth_eq _).trans hpass)
        · rw [if_neg hc, if_neg hc]
          exact hcur

/-- What is known of the register at the end of a path that spares it. -/
theorem Tracks.follow (hgen : er.reg_kind = .General) (path : List Step) :
    ∀ {p : Point} {t : Track}, Tracks er z old p t → (∀ s ∈ path, s.Spares er) →
      Tracks er z old (p.follow path) (t.follow er path) := by
  induction path with
  | nil => exact fun h _ => h
  | cons s path ih =>
    intro p t h hpath
    exact ih (h.step hgen (hpath s (.head _))) fun s' hs' => hpath s' (.tail _ hs')

end

/-! ### Exact reads -/

/-- The bits that are left are those of the architecture: the others are zero, and signs behind a
word are cut off again.  What `CPUState` held before may be the same by chance. -/
def Kept.Exact (k : Kept) (l : GeneralLoad) (y old : BitVec 64) (f : Form) : Prop :=
  if k.loaded then
    (y.setWidth f.size).toNat < 2 ^ k.bits ∧
      (l.overextends → f.size ≤ 32 ∨ k.bits ≤ 32 ∨ y.getLsbD 31 = false)
  else ((old.setWidth k.bits).setWidth 64).setWidth f.size = y.setWidth f.size

section

variable {y old : BitVec 64} {b n : ℕ}

/-- Nothing is lost where the bits above are zero. -/
theorem cut_eq_iff (y : BitVec 64) (b : ℕ) (hn : n ≤ 64) :
    ((y.setWidth b).setWidth 64).setWidth n = y.setWidth n ↔ (y.setWidth n).toNat < 2 ^ b := by
  rw [BitVec.setWidth_setWidth_of_le _ hn]
  rcases le_total n b with hle | hle
  · rw [BitVec.setWidth_setWidth_of_le _ hle]
    exact iff_of_true rfl ((y.setWidth n).isLt.trans_le (Nat.pow_le_pow_right (by decide) hle))
  · have hcut : (y.setWidth b).setWidth n = ((y.setWidth n).setWidth b).setWidth n := by
      rw [BitVec.setWidth_setWidth_of_le y hle]
    rw [hcut]
    generalize y.setWidth n = x
    constructor
    · intro h
      rw [← h, BitVec.toNat_setWidth_of_le hle]
      exact (x.setWidth b).isLt
    · intro h
      apply BitVec.eq_of_toNat_eq
      rw [BitVec.toNat_setWidth_of_le hle, BitVec.toNat_setWidth, Nat.mod_eq_of_lt h]

/-- Signs stand behind the word. -/
theorem getLsbD_signs (y : BitVec 64) {i : ℕ} (hi : i < 64) :
    ((y.setWidth 32).signExtend 64).getLsbD i =
      if i < 32 then y.getLsbD i else y.getLsbD 31 := by
  rw [BitVec.getLsbD_signExtend, decide_eq_true hi, Bool.true_and, BitVec.msb_setWidth,
    BitVec.getLsbD_setWidth]
  by_cases h32 : i < 32
  · rw [if_pos h32, if_pos h32, decide_eq_true h32, Bool.true_and]
  · rw [if_neg h32, if_neg h32]
    rfl

theorem getLsbD_of_word (hword : (y.setWidth 32).setWidth 64 = y) {i : ℕ} (hi : 32 ≤ i) :
    y.getLsbD i = false := by
  rw [← hword, BitVec.getLsbD_setWidth, BitVec.getLsbD_of_ge _ i hi, Bool.and_false]

/-- The signs are zero, or they are cut off. -/
theorem cut_signs (hword : (y.setWidth 32).setWidth 64 = y)
    (h : n ≤ 32 ∨ b ≤ 32 ∨ y.getLsbD 31 = false) :
    ((((y.setWidth 32).signExtend 64).setWidth b).setWidth 64).setWidth n =
      ((y.setWidth b).setWidth 64).setWidth n := by
  apply BitVec.eq_of_getLsbD_eq
  intro i hi
  by_cases hib : i < 64 ∧ i < b
  · have hbit : ((y.setWidth 32).signExtend 64).getLsbD i = y.getLsbD i := by
      rw [getLsbD_signs y hib.1]
      by_cases h32 : i < 32
      · rw [if_pos h32]
      · have hsign : y.getLsbD 31 = false := (h.resolve_left (by omega)).resolve_left (by omega)
        rw [if_neg h32, hsign, getLsbD_of_word hword (Nat.le_of_not_lt h32)]
    simp only [BitVec.getLsbD_setWidth, hbit]
  · have hout : (decide (i < 64) && decide (i < b)) = false := by
      rw [← Bool.decide_and]
      exact decide_eq_false hib
    simp only [BitVec.getLsbD_setWidth, ← Bool.and_assoc, hout, Bool.and_false, Bool.false_and]

theorem Kept.exact_iff (k : Kept) (l : GeneralLoad) (f : Form)
    (hword : l.overextends = true → (y.setWidth 32).setWidth 64 = y) :
    (k.value (l.result y) old).setWidth f.size = y.setWidth f.size ↔ k.Exact l y old f := by
  have hn : f.size ≤ 64 := by cases f <;> decide
  obtain ⟨loaded, b⟩ := k
  cases loaded with
  | false => exact Iff.rfl
  | true =>
    show (((l.result y).setWidth b).setWidth 64).setWidth f.size = y.setWidth f.size ↔
      (y.setWidth f.size).toNat < 2 ^ b ∧
        (l.overextends = true → f.size ≤ 32 ∨ b ≤ 32 ∨ y.getLsbD 31 = false)
    rcases hover : l.overextends with - | -
    · rw [l.result_of_not hover]
      exact (cut_eq_iff y b hn).trans (and_iff_left nofun).symm
    · have hresult : l.result y = (y.setWidth 32).signExtend 64 := if_pos hover
      rw [hresult]
      by_cases hs : f.size ≤ 32 ∨ b ≤ 32 ∨ y.getLsbD 31 = false
      · rw [cut_signs (hword hover) hs]
        exact (cut_eq_iff y b hn).trans (and_iff_left fun _ => hs).symm
      · -- the first of the signs is read
        refine iff_of_false (fun h => ?_) fun h => hs (h.2 rfl)
        obtain ⟨hsize, hb, hsign⟩ : 32 < f.size ∧ 32 < b ∧ y.getLsbD 31 ≠ false := by
          simp only [not_or, not_le] at hs
          exact hs
        have hbit := congrArg (fun x => BitVec.getLsbD x 32) h
        simp only [BitVec.getLsbD_setWidth, hsize, hb, decide_true, Bool.true_and,
          getLsbD_signs y (by decide : 32 < 64), getLsbD_of_word (hword hover) (le_refl 32)] at hbit
        exact hsign hbit

end

theorem value_eq_iff (f : Form) (x y : BitVec 64) :
    (⟨f.rclass, x.setWidth _⟩ : Value) = ⟨f.rclass, y.setWidth _⟩ ↔
      x.setWidth f.size = y.setWidth f.size := by
  cases f with
  | W | X => exact ⟨fun h => eq_of_heq (Value.mk.inj h).2, fun h => congrArg (Value.mk _) h⟩

/-! ### Loads and their reads -/

/-- The registers that a load loads for its address. -/
def GeneralLoad.loads (x86_64 : Bool) (l : GeneralLoad) : List (EcvReg × ERC) :=
  (l.TryDecode x86_64).elim [] SemaInst.loads

/-- What the architecture loads into a register at the point. -/
def GeneralLoad.loadedX (x86_64 : Bool) (l : GeneralLoad) (p : Point) (r : BitVec 5) : BitVec 64 :=
  Arm.X (Arm.execLoad (p.guest (l.loads x86_64)) l).regs r

/-- The load is lifted, and at the end of the path the register reads as the architecture has it. -/
def LeavesArm (x86_64 : Bool) (l : GeneralLoad) (p : Point) (r : BitVec 5) (path : List Step)
    (f : Form) : Prop :=
  ∃ inst p', l.TryDecode x86_64 = some inst ∧ p.exec l.isel inst = some p' ∧
    (p'.follow path).read ⟨.General, r.toNat⟩ f.rclass =
      ⟨f.rclass, (l.loadedX x86_64 p r).setWidth _⟩

section

variable {x86_64 : Bool} {inst : SemaInst} {l : GeneralLoad} {r : BitVec 5}

theorem GeneralLoad.exists_decode (ha : Arm.Allocated l) (hl : l.Lifts) :
    ∃ inst, l.TryDecode x86_64 = some inst := by
  cases l with
  | POS i d => exact ⟨_, rfl⟩
  | UNSCALED i d => exact ⟨_, if_neg hl⟩
  | REGOFF i d =>
    obtain ⟨o, ho⟩ := i.lifts (R := fun _ => 0#128) ha
    exact ⟨_, congrArg (Option.map _) ho.decoded⟩
  | IMM i m d => exact ⟨_, rfl⟩
  | LDP_OFF i d => exact ⟨_, if_neg ha⟩
  | LDP i m d => exact ⟨_, if_neg fun h => ha.1 h.2⟩

/-- Behind a load its register holds the result of the function. -/
theorem Point.exec_tracks (ha : Arm.Allocated l) (hl : l.Lifts)
    (h : l.TryDecode x86_64 = some inst) (hr : r ∈ l.Rts) (h31 : r ≠ 31#5) (p : Point) :
    ∃ p', p.exec l.isel inst = some p' ∧
      Tracks ⟨.General, r.toNat⟩ (l.result (l.loadedX x86_64 p r))
        ((p.cpu ⟨.General, r.toNat⟩).setWidth 64) p' (.start p) := by
  have hloads : l.loads x86_64 = inst.loads := by
    unfold GeneralLoad.loads
    rw [h]
    rfl
  unfold GeneralLoad.loadedX
  rw [hloads]
  cases p with
  | block cpu s =>
    obtain ⟨s', hs', v, hv, hbits⟩ := GeneralLoad.exec_block ha hl h hr h31 cpu s
    refine ⟨.block cpu s', congrArg (Option.map _) hs', (Kept.value_old _ _).symm, ?_⟩
    rw [hv]
    exact congrArg some (hbits.trans (Kept.value_whole _ _).symm)
  | stored g =>
    obtain ⟨g', hg', hbits⟩ := GeneralLoad.exec_stored ha hl h hr h31 g
    exact ⟨.stored g', congrArg (Option.map _) hg', hbits.trans (Kept.value_whole _ _).symm⟩

theorem Point.exec_of_not (ha : Arm.Allocated l) (hl : ¬l.Lifts)
    (h : l.TryDecode x86_64 = some inst) (p : Point) : p.exec l.isel inst = none := by
  cases p with
  | block cpu s => exact congrArg (Option.map _) (GeneralLoad.exec_block_of_not ha hl h cpu s)
  | stored g => exact congrArg (Option.map _) (GeneralLoad.exec_stored_of_not ha hl h g)

theorem setWidth_word {m : ℕ} (hm : m ≤ 32) (x : BitVec m) :
    ((x.zeroExtend 64).setWidth 32).setWidth 64 = x.zeroExtend 64 := by
  show ((x.setWidth 64).setWidth 32).setWidth 64 = x.setWidth 64
  rw [BitVec.setWidth_setWidth_of_le x (by decide : 32 ≤ 64), BitVec.setWidth_setWidth (by omega)]

theorem Arm.Transfer.fits {n k : ℕ} {extend : BitVec (n * 8) → BitVec 64} {Rts : List (BitVec 5)}
    (hr : r ∈ Rts) (h31 : r ≠ 31#5) (addr : BitVec 64) (g : Guest)
    (h : ∀ x, ((extend x).setWidth k).setWidth 64 = extend x) :
    ((X ((loadX n extend Rts).exec addr g).regs r).setWidth k).setWidth 64 =
      X ((loadX n extend Rts).exec addr g).regs r := by
  obtain ⟨x, hx⟩ := X_load (n := n) h31 hr addr g.mem
  have hextend : X ((loadX n extend Rts).exec addr g).regs r = extend x := hx ..
  rw [hextend]
  exact h x

/-- What is loaded is extended by zeros behind the class of the destination. -/
theorem LoadX.fits (i : LoadX) {Rt : BitVec 5} (hr : r ∈ [Rt]) (h31 : r ≠ 31#5) (addr : BitVec 64)
    (g : Guest) :
    ((Arm.X ((Arm.transferX Rt i).exec addr g).regs r).setWidth (ERCSize i.rclass)).setWidth 64 =
      Arm.X ((Arm.transferX Rt i).exec addr g).regs r := by
  cases i with
  | LDR_32 | LDRB_32 | LDRH_32 =>
    exact Arm.Transfer.fits hr h31 addr g fun x => setWidth_word (by decide) x
  | LDRSB_32 | LDRSH_32 =>
    exact Arm.Transfer.fits hr h31 addr g fun x => setWidth_word (le_refl 32) (x.signExtend 32)
  | LDR_64 | LDRSB_64 | LDRSH_64 | LDRSW_64 =>
    exact Arm.Transfer.fits hr h31 addr g fun x =>
      (BitVec.setWidth_eq _).trans (BitVec.setWidth_eq _)

theorem LoadPairX.fits (i : LoadPairX) {d : PairFields} (hr : r ∈ [d.Rt, d.Rt2]) (h31 : r ≠ 31#5)
    (addr : BitVec 64) (g : Guest) :
    ((Arm.X ((Arm.transferLDP d i.pair).exec addr g).regs r).setWidth
        (ERCSize i.rclass)).setWidth 64 =
      Arm.X ((Arm.transferLDP d i.pair).exec addr g).regs r := by
  cases i with
  | LDP_32 => exact Arm.Transfer.fits hr h31 addr g fun x => setWidth_word (le_refl 32) x
  | LDP_64 | LDPSW_64 =>
    exact Arm.Transfer.fits hr h31 addr g fun x =>
      (BitVec.setWidth_eq _).trans (BitVec.setWidth_eq _)

/-- The class of the destination. -/
def Arm.destClass : GeneralLoad → ERC
  | .POS i _ | .UNSCALED i _ | .IMM i _ _ => i.rclass
  | .REGOFF i _ => (loadRegOff i).rclass
  | .LDP_OFF i _ | .LDP i _ _ => i.rclass

theorem GeneralLoad.loadedX_fits (ha : Arm.Allocated l) (hr : r ∈ l.Rts) (h31 : r ≠ 31#5)
    (p : Point) : ((l.loadedX x86_64 p r).setWidth (ERCSize (Arm.destClass l))).setWidth 64 =
      l.loadedX x86_64 p r := by
  unfold loadedX
  rw [X_execLoad ha hr]
  cases l with
  | POS i d | UNSCALED i d | IMM i m d => exact i.fits hr h31 _ _
  | REGOFF i d => exact (Arm.loadRegOff i).fits hr h31 _ _
  | LDP_OFF i d | LDP i m d => exact i.fits hr h31 _ _

theorem GeneralLoad.destClass_of_overextends (h : l.overextends = true) :
    Arm.destClass l = .RegW := by
  cases l with
  | POS i d | UNSCALED i d => cases i <;> first | rfl | exact nomatch h
  | REGOFF | IMM | LDP_OFF | LDP => exact nomatch h

end

/-! ### The phi nodes of the lifter -/

/-- The class that the decoder notes for the destination. -/
def GeneralLoad.rclass : GeneralLoad → ERC
  | POS i _ | UNSCALED i _ | IMM i _ _ => i.rclass
  | REGOFF i _ => i.rclass
  | LDP_OFF i _ | LDP i _ _ => i.rclass

theorem GeneralLoad.rclass_eq (l : GeneralLoad) :
    l.rclass = Arm.destClass l ∨ ∃ d, l = .REGOFF .LDRSB_64BL d := by
  cases l with
  | POS | UNSCALED | IMM | LDP_OFF | LDP => exact .inl rfl
  | REGOFF i d => cases i <;> first | exact .inl rfl | exact .inr ⟨d, rfl⟩

section

variable {β : Type} [Fintype β] [DecidableEq β] {blocks : BlockGraph β} {bags : BagGraph β} {a : β}
  {er : EcvReg} {erc : ERC}

/-- A step in the function, behind block `a`: the phi nodes of a block are those of the lifter, and
the register is read from there on. -/
def Step.Within (blocks : BlockGraph β) (bags : BagGraph β) (a : β) (er : EcvReg) : Step → Prop
  | inst _ => True
  | enter drvd => ∃ b c, drvd = bags.deriveAll.drvd_rmp b ∧ blocks.StrictlyBefore a b ∧
      blocks.ReadFrom er c b
  | across c _ => c.returns er = false
  | into _ => False

/-- A value stays in the map, with the bits of the class that its write was noted by. -/
theorem Track.follow_within (h : CorrectMaps blocks bags)
    (hstr : blocks.bb_str_r_mp a er = some erc) {n : ℕ} (hn : n ≤ ERCSize erc) (path : List Step) :
    ∀ {cpu k}, k.loaded = true → n ≤ k.bits → (∀ s ∈ path, s.Within blocks bags a er) →
      ((Track.block cpu (some k)).follow er path).read.loaded = true ∧
        n ≤ ((Track.block cpu (some k)).follow er path).read.bits := by
  induction path with
  | nil => exact fun hk hbits _ => ⟨hk, hbits⟩
  | cons s path ih =>
    intro cpu k hk hbits hpath
    have hs := hpath s (.head _)
    have hrest : ∀ s ∈ path, s.Within blocks bags a er := fun s' hs' => hpath s' (.tail _ hs')
    cases s with
    | inst p => exact ih hk hbits hrest
    | enter drvd =>
      obtain ⟨b, c, rfl, hab, hread⟩ := hs
      -- the maps are correct, so the block has a phi node at least as wide as the access
      obtain ⟨erc', hdrvd, hle⟩ := h.derive_as_wide hab hstr hread
      have hstep : (Track.block cpu (some k)).step er (.enter (bags.deriveAll.drvd_rmp b)) =
          .block cpu (some (k.cut (ERCSize erc'))) := by
        show Track.block cpu ((bags.deriveAll.drvd_rmp b er).map _) = _
        rw [hdrvd]
        rfl
      show ((Track.step er _ _).follow er path).read.loaded = true ∧
        n ≤ ((Track.step er _ _).follow er path).read.bits
      rw [hstep]
      exact ih hk (le_min hbits (hn.trans hle)) hrest
    | across c callee =>
      -- the callee does not hand the register back, so the value stays
      have hreturns : c.returns er = false := hs
      have hstep : (Track.block cpu (some k)).step er (.across c callee) =
          .block (Track.pass er c cpu (some k)) (some k) := by
        show Track.block _ (if c.returns er = true then _ else some k) = _
        rw [hreturns]
        rfl
      show ((Track.step er _ _).follow er path).read.loaded = true ∧
        n ≤ ((Track.step er _ _).follow er path).read.bits
      rw [hstep]
      exact ih hk hbits hrest
    | into indirectbr => exact False.elim hs

/-- In the function itself the reads of a load are exact, where its function does not extend too far
and the class that is noted for it is that of its value. -/
theorem GeneralLoad.exact_within (h : CorrectMaps blocks bags) {x86_64 : Bool} {l : GeneralLoad}
    {r : BitVec 5} (ha : Arm.Allocated l) (hr : r ∈ l.Rts) (h31 : r ≠ 31#5)
    (hover : l.overextends = false) (hclass : ∀ d, l ≠ .REGOFF .LDRSB_64BL d)
    (hstr : blocks.bb_str_r_mp a ⟨.General, r.toNat⟩ = some l.rclass) (cpu : RegFile)
    (s : BlockState) {path : List Step}
    (hpath : ∀ s ∈ path, s.Within blocks bags a ⟨.General, r.toNat⟩) (f : Form) (old : BitVec 64) :
    ((Track.start (.block cpu s)).follow ⟨.General, r.toNat⟩ path).read.Exact l
      (l.loadedX x86_64 (.block cpu s) r) old f := by
  have heq : l.rclass = Arm.destClass l := l.rclass_eq.resolve_right fun ⟨d, hd⟩ => hclass d hd
  have hgen : l.rclass = .RegW ∨ l.rclass = .RegX := by
    cases l with
    | POS i d | UNSCALED i d | IMM i m d | REGOFF i d | LDP_OFF i d | LDP i m d =>
      cases i <;> first | exact .inl rfl | exact .inr rfl
  have hsize : ERCSize l.rclass ≤ 64 := by
    rcases hgen with h | h <;> rw [h] <;> decide
  -- no step of the way cuts below the class that is noted for the load
  have hkept : ((Track.start (.block cpu s)).follow ⟨.General, r.toNat⟩ path).read.loaded = true ∧
      ERCSize l.rclass ≤
        ((Track.start (.block cpu s)).follow ⟨.General, r.toNat⟩ path).read.bits :=
    Track.follow_within h hstr (le_refl _) path rfl hsize hpath
  have hfits : ((l.loadedX x86_64 (.block cpu s) r).setWidth (ERCSize (Arm.destClass l))).setWidth
      64 = l.loadedX x86_64 (.block cpu s) r := l.loadedX_fits ha hr h31 _
  rw [← heq] at hfits
  generalize l.loadedX x86_64 (.block cpu s) r = y at hfits
  generalize ((Track.start (.block cpu s)).follow ⟨.General, r.toNat⟩ path).read = k at hkept
  have hlt : (y.setWidth f.size).toNat < 2 ^ ERCSize l.rclass := by
    rw [← cut_eq_iff _ _ (by cases f <;> decide), hfits]
  unfold Kept.Exact
  rw [if_pos hkept.1]
  exact ⟨hlt.trans_le (Nat.pow_le_pow_right (by decide) hkept.2),
    fun h => nomatch hover.symm.trans h⟩

end

/-- **Loads leave the architectural value.**  A read behind a load sees it exactly when the load is
lifted and the bits that are left of its result on the way are those of the architecture. -/
theorem loads_leave_arm_iff (x86_64 : Bool) (l : GeneralLoad) (ha : Arm.Allocated l) (p : Point)
    (r : BitVec 5) (hr : r ∈ l.Rts) (h31 : r ≠ 31#5) (path : List Step)
    (hpath : ∀ s ∈ path, s.Spares ⟨.General, r.toNat⟩) (f : Form) :
    LeavesArm x86_64 l p r path f ↔ l.Lifts ∧
      ((Track.start p).follow ⟨.General, r.toNat⟩ path).read.Exact l (l.loadedX x86_64 p r)
        ((p.cpu ⟨.General, r.toNat⟩).setWidth 64) f := by
  have hle : ERCSize f.rclass ≤ 64 := by cases f <;> decide
  -- the value of the read, where the load is lifted
  have hread : ∀ inst, l.TryDecode x86_64 = some inst → l.Lifts →
      ∃ p', p.exec l.isel inst = some p' ∧
        ((p'.follow path).read ⟨.General, r.toNat⟩ f.rclass =
          ⟨f.rclass, (l.loadedX x86_64 p r).setWidth _⟩ ↔
        ((Track.start p).follow ⟨.General, r.toNat⟩ path).read.Exact l (l.loadedX x86_64 p r)
          ((p.cpu ⟨.General, r.toNat⟩).setWidth 64) f) := by
    intro inst hdec hl
    obtain ⟨p', hexec, htracks⟩ := p.exec_tracks ha hl hdec hr h31
    refine ⟨p', hexec, ?_⟩
    rw [(Tracks.follow rfl path htracks hpath).read hle, value_eq_iff]
    refine Kept.exact_iff _ l f fun h => ?_
    have hfits : ((l.loadedX x86_64 p r).setWidth (ERCSize (Arm.destClass l))).setWidth 64 =
        l.loadedX x86_64 p r := l.loadedX_fits ha hr h31 p
    rwa [l.destClass_of_overextends h] at hfits
  constructor
  · rintro ⟨inst, p', hdec, hexec, heq⟩
    have hl : l.Lifts := by
      by_contra hl
      exact nomatch hexec.symm.trans (p.exec_of_not ha hl hdec)
    obtain ⟨p'', hexec', hiff⟩ := hread inst hdec hl
    cases hexec.symm.trans hexec'
    exact ⟨hl, hiff.mp heq⟩
  · rintro ⟨hl, hexact⟩
    obtain ⟨inst, hdec⟩ : ∃ inst, l.TryDecode x86_64 = some inst :=
      GeneralLoad.exists_decode ha hl
    obtain ⟨p', hexec, hiff⟩ := hread inst hdec hl
    exact ⟨inst, p', hdec, hexec, hiff.mpr hexact⟩

/-- The value of `LDR X1, [X0]` goes through a phi node and to a callee. -/
theorem loads_leave_arm_handed_on :
    LeavesArm true (.POS .LDR_64 ⟨0#12, 0#5, 1#5⟩)
      (.block (fun _ => 0#128) (.start (fun _ => none) ⟨fun _ => 0#128, fun _ => 0x80#8⟩)) 1#5
      [.enter fun _ => some .RegX, .into false] .X := by
  refine (loads_leave_arm_iff true (.POS .LDR_64 ⟨0#12, 0#5, 1#5⟩) trivial _ 1#5 (.head _)
    (by decide) _ ?_ .X).mpr ⟨trivial, BitVec.isLt _, nofun⟩
  intro s hs
  rcases List.mem_pair.mp hs with rfl | rfl <;> trivial

/-- `LDURSB W1, [X0]` of a negative byte leaves signs in the upper half of `X1`. -/
theorem loads_leave_signs :
    ¬LeavesArm true (.UNSCALED .LDRSB_32 ⟨0#9, 0#5, 1#5⟩)
      (.block (fun _ => 0#128) (.start (fun _ => none) ⟨fun _ => 0#128, fun _ => 0x80#8⟩)) 1#5
      [] .X := by
  rintro ⟨inst, p', hdec, hexec, hread⟩
  cases hdec
  cases hexec
  exact absurd (congrArg (fun v : Value => v.bits.setWidth 64) hread) (by decide)

end Elfconv.AArch64
