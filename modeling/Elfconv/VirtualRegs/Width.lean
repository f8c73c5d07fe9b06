/-
Elfconv/VirtualRegs/Width.lean

The width of register values forwarded inside a block.

`OptimizeVirtualRegsUsage` keeps for each register the value of its last write, or of its
first read, with the class of that access.  A later read gets this value by
`CastFromInst`: extended by zeros to a wider class, truncated to a narrower one.

That is right after a write, which clears the bits above its class, and wrong after a
narrow read, which leaves them.  `operands_eq_iff` says so: the block computes with the
operands of the unoptimised one, on every register file, exactly when no register is read
before it is written by a class wider than that of its first read.
-/
import Elfconv.VirtualRegs.Reg
import Mathlib.Tactic.Common

namespace Elfconv

/-- A value of type `ERC2LLVMTy(erc)`, by its bits. -/
structure Value where
  erc : ERC
  bits : BitVec (ERCSize erc)
  deriving DecidableEq

namespace Value

/-- The low bits of a register, as a read by `erc` gives them. -/
def low (erc : ERC) (reg : BitVec 128) : Value := ⟨erc, reg.setWidth _⟩

/-- The register after a write of the value: the bits above are cleared. -/
def whole (v : Value) : BitVec 128 := v.bits.setWidth 128

end Value

/-- `CastFromInst`.  Where the kinds of type differ, the code puts bit casts around the
extension or the truncation, which keep the bits. -/
def castFromInst (from_inst : Value) (to_inst_ty : ERC) : Value :=
  if from_inst.erc = to_inst_ty then from_inst
  else if ERCSize from_inst.erc < ERCSize to_inst_ty then
    ⟨to_inst_ty, from_inst.bits.zeroExtend _⟩
  else if ERCSize to_inst_ty < ERCSize from_inst.erc then
    ⟨to_inst_ty, from_inst.bits.truncate _⟩
  else
    ⟨to_inst_ty, from_inst.bits.setWidth _⟩

/-- The classes with an integer type. -/
def ERC.isInteger : ERC → Bool
  | .RegB | .RegH | .RegW | .RegX | .RegQ => true
  | _ => false

/-- `CastFromInst` gets past its checks.  A special register takes a byte besides the class that it
is cast to. -/
def castChecks (t_er : EcvReg) (from_inst to_inst_ty : ERC) : Bool :=
  if ERCSize from_inst = ERCSize to_inst_ty then true
  else
    match t_er.reg_kind with
    | .General => from_inst.isInteger && to_inst_ty.isInteger
    | .Vector => true
    | .Special => from_inst = .RegB && to_inst_ty.isInteger

/-! ### Blocks -/

/-- A call of a semantics function: its operands are reads of the block, by their number,
and it writes its results to registers. -/
structure SemaCall where
  args : List Nat
  writes : List Access
  sema : List Value → Nat → BitVec 128

namespace SemaCall

/-- The result for the `i`-th written register. -/
def result (c : SemaCall) (operands : List Value) (a : Access) (i : Nat) : Value :=
  .low a.erc (c.sema (c.args.filterMap (operands[·]?)) i)

/-- The results for all registers that are written. -/
def results (c : SemaCall) (operands : List Value) : List Value :=
  c.writes.zipIdx.map fun p => c.result operands p.1 p.2

end SemaCall

/-- A register read or a semantics call. -/
inductive BlockInst
  | load (a : Access)
  | call (c : SemaCall)

namespace BlockInst

/-- The instruction writes the register. -/
def writes : BlockInst → EcvReg → Prop
  | load _, _ => False
  | call c, er => ∃ a ∈ c.writes, a.er = er

/-- The class of a read of `er`. -/
def readClass (er : EcvReg) : BlockInst → Option ERC
  | load a => if a.er = er then some a.erc else none
  | call _ => none

end BlockInst

/-- A value of 128 bits for every register, of which the general ones use the low half. -/
abbrev RegFile := EcvReg → BitVec 128

/-! ### The unoptimised block -/

/-- Every result is stored at once. -/
def SemaCall.storeResults (c : SemaCall) (operands : List Value) (regs : RegFile) : RegFile :=
  c.writes.zipIdx.foldl
    (fun regs p => Function.update regs p.1.er (c.result operands p.1 p.2).whole) regs

/-- The registers in `CPUState`, and the values of the reads so far. -/
structure Unoptimised where
  regs : RegFile
  operands : List Value

/-- A read sees the register as the last call stored it. -/
def Unoptimised.step (s : Unoptimised) : BlockInst → Unoptimised
  | .load a => { s with operands := s.operands ++ [.low a.erc (s.regs a.er)] }
  | .call c => { s with regs := c.storeResults s.operands s.regs }

/-! ### The rewriting -/

/-- A value of the block: the `n`-th read, or the `n`-th call, with its number of results. -/
inductive SsaValue
  | load (n : Nat)
  | call (n results : Nat)
  deriving DecidableEq

/-- An entry of `cur_r_inst_mp`. -/
structure CacheEntry where
  erc : ERC
  value : SsaValue
  order : Nat
  stored : Bool

/-- What becomes of an instruction: a read is kept, or its users get a cached value. -/
inductive OptInst
  | load (a : Access)
  | reuse (value : SsaValue) (extract : Option Nat) (erc : ERC)
  | call (c : SemaCall)

/-- The state of the rewriting, with the numbers of the reads and calls so far. -/
structure Rewriter where
  cur_r_inst_mp : EcvReg → Option CacheEntry
  loads : Nat
  calls : Nat

/-- The component that `GetRegValueFromCacheMap` extracts from the value of a call with
several results. -/
def CacheEntry.extract (e : CacheEntry) : Option Nat :=
  match e.value with
  | .load _ => none
  | .call _ results => if results = 1 then none else some e.order

/-- The `n`-th call becomes the latest value of the registers it writes. -/
def SemaCall.cacheResults (c : SemaCall) (n : Nat) (mp : EcvReg → Option CacheEntry) :
    EcvReg → Option CacheEntry :=
  c.writes.zipIdx.foldl
    (fun mp p => Function.update mp p.1.er
      (some ⟨p.1.erc, .call n c.writes.length, p.2, true⟩)) mp

/-- A read is kept if it is the first access to its register, and its users are redirected if not.
-/
def Rewriter.rewrite (r : Rewriter) : BlockInst → OptInst × Rewriter
  | .load a =>
      match r.cur_r_inst_mp a.er with
      | some e => (.reuse e.value e.extract a.erc, { r with loads := r.loads + 1 })
      | none =>
          -- the first access is loaded
          (.load a,
            { r with
              cur_r_inst_mp :=
                Function.update r.cur_r_inst_mp a.er (some ⟨a.erc, .load r.loads, 0, false⟩)
              loads := r.loads + 1 })
  | .call c =>
      (.call c,
        { r with
          cur_r_inst_mp := c.cacheResults r.calls r.cur_r_inst_mp
          calls := r.calls + 1 })

/-- The rewritten block. -/
def Rewriter.optimize (r : Rewriter) : List BlockInst → List OptInst
  | [] => []
  | i :: rest => (r.rewrite i).1 :: (r.rewrite i).2.optimize rest

/-- The rewriting starts with no register cached. -/
def Rewriter.start : Rewriter where
  cur_r_inst_mp := fun _ => none
  loads := 0
  calls := 0

/-! ### The rewritten block -/

/-- `CPUState`, which the block does not store to, and the values so far. -/
structure Optimised where
  regs : RegFile
  operands : List Value
  results : List (List Value)

/-- The value of a component; `none` where there is no such value. -/
def Optimised.fetch (s : Optimised) : SsaValue → Option Nat → Option Value
  | .load n, _ => s.operands[n]?
  | .call n _, extract => s.results[n]?.bind fun rs => rs[extract.getD 0]?

/-- A cached value is cast to the class of the read that it replaces. -/
def Optimised.step (s : Optimised) : OptInst → Option Optimised
  | .load a => some { s with operands := s.operands ++ [.low a.erc (s.regs a.er)] }
  | .reuse value extract erc =>
      (s.fetch value extract).map fun v =>
        { s with operands := s.operands ++ [castFromInst v erc] }
  | .call c => some { s with results := s.results ++ [c.results s.operands] }

/-- The rewritten instructions one after the other; nothing where a value is missing. -/
def Optimised.run (s : Optimised) : List OptInst → Option Optimised
  | [] => some s
  | i :: rest => (s.step i).bind fun s => s.run rest

/-! ### The operands of a block -/

/-- The operands in the unoptimised execution. -/
def unoptimisedOperands (regs : RegFile) (block : List BlockInst) : List Value :=
  (block.foldl Unoptimised.step ⟨regs, []⟩).operands

/-- The operands the rewriting supplies. -/
def optimisedOperands (regs : RegFile) (block : List BlockInst) : Option (List Value) :=
  ((Optimised.mk regs [] []).run (Rewriter.start.optimize block)).map Optimised.operands

/-- A read of a register that was not written before is no wider than its first read. -/
def FirstReadWidest (block : List BlockInst) : Prop :=
  ∀ done a rest, block = done ++ .load a :: rest → (∀ i ∈ done, ¬ i.writes a.er) →
    ∀ erc, done.findSome? (BlockInst.readClass a.er) = some erc → ERCSize a.erc ≤ ERCSize erc

/-! ### Casts -/

/-- The cast of a value truncates or extends with zeros. -/
theorem castFromInst_eq (v : Value) (erc : ERC) :
    castFromInst v erc = ⟨erc, v.bits.setWidth _⟩ := by
  unfold castFromInst
  split
  · rename_i h
    subst h
    simp
  · split
    · rfl
    · split
      · rfl
      · rfl

/-- After a write, any class may be read. -/
theorem castFromInst_of_whole {v : Value} {reg : BitVec 128} (h : reg = v.whole) (erc : ERC) :
    castFromInst v erc = .low erc reg := by
  rw [castFromInst_eq, h, Value.low, Value.whole,
    BitVec.setWidth_setWidth_of_le _ (ERCSize_le erc)]

/-- After a read, any class may be read that is no wider. -/
theorem castFromInst_low {erc erc' : ERC} (h : ERCSize erc' ≤ ERCSize erc) (reg : BitVec 128) :
    castFromInst (.low erc reg) erc' = .low erc' reg := by
  rw [castFromInst_eq]
  exact congrArg (Value.mk erc') (BitVec.setWidth_setWidth_of_le _ h)

/-- A wider class would find the bits that the read left out. -/
theorem ERCSize_le_of_cast {erc erc' : ERC} (reg : BitVec 128)
    (hreg : ∀ i < 128, reg.getLsbD i = true)
    (h : castFromInst (.low erc reg) erc' = .low erc' reg) : ERCSize erc' ≤ ERCSize erc := by
  by_contra hlt
  -- the bit just above the first read
  have hbit : (castFromInst (.low erc reg) erc').whole.getLsbD (ERCSize erc) =
      (Value.low erc' reg).whole.getLsbD (ERCSize erc) := by rw [h]
  rw [castFromInst_eq] at hbit
  have hlt' : ERCSize erc < ERCSize erc' := by omega
  have h128 : ERCSize erc < 128 := Nat.lt_of_lt_of_le hlt' (ERCSize_le erc')
  have hone := hreg _ h128
  rw [BitVec.getLsbD_eq_getElem h128] at hone
  simp [Value.low, Value.whole, hlt', h128, hone] at hbit

/-! ### What the cache holds -/

/-- The instructions `done` so far, on the way from the registers `init`, and what they
leave of a register: not accessed, read and not written, or written. -/
inductive Cached (init : RegFile) (done : List BlockInst) (s : Unoptimised) (o : Optimised)
    (er : EcvReg) : Option CacheEntry → Prop
  | untouched : (∀ i ∈ done, ¬ i.writes er) →
      done.findSome? (BlockInst.readClass er) = none → s.regs er = init er →
      Cached init done s o er none
  | read {erc : ERC} {n : Nat} : (∀ i ∈ done, ¬ i.writes er) →
      done.findSome? (BlockInst.readClass er) = some erc → s.regs er = init er →
      o.operands[n]? = some (.low erc (init er)) →
      Cached init done s o er (some ⟨erc, .load n, 0, false⟩)
  | written {e : CacheEntry} {v : Value} : (∃ i ∈ done, i.writes er) →
      o.fetch e.value e.extract = some v → s.regs er = v.whole →
      Cached init done s o er (some e)

/-- The unoptimised and the rewritten block after `done`, and the rewriting in between. -/
structure WidthInv (init : RegFile) (done : List BlockInst) (s : Unoptimised) (r : Rewriter)
    (o : Optimised) : Prop where
  regs : o.regs = init
  operands : o.operands = s.operands
  loads : r.loads = o.operands.length
  calls : r.calls = o.results.length
  cached : ∀ er, Cached init done s o er (r.cur_r_inst_mp er)

variable {init : RegFile} {done : List BlockInst} {s : Unoptimised} {r : Rewriter}
  {o : Optimised}

/-- The invariant at the start of the block. -/
theorem widthInv_start (init : RegFile) :
    WidthInv init [] ⟨init, []⟩ .start ⟨init, [], []⟩ where
  regs := rfl
  operands := rfl
  loads := rfl
  calls := rfl
  cached _ := .untouched (by simp) rfl rfl

/-- Values that exist stay as they are when more are added. -/
theorem fetch_mono {v : Value} {value : SsaValue} {extract : Option Nat}
    (h : o.fetch value extract = some v) (operands : List Value) (results : List (List Value)) :
    (Optimised.mk o.regs (o.operands ++ operands) (o.results ++ results)).fetch value extract =
      some v := by
  cases value with
  | load n =>
      have hn : n < o.operands.length := (List.getElem?_eq_some_iff.mp h).1
      simp only [Optimised.fetch] at h ⊢
      rw [List.getElem?_append_left hn, h]
  | call n k =>
      simp only [Optimised.fetch, Option.bind_eq_some_iff] at h ⊢
      obtain ⟨rs, hrs, hv⟩ := h
      have hn : n < o.results.length := (List.getElem?_eq_some_iff.mp hrs).1
      exact ⟨rs, by rw [List.getElem?_append_left hn, hrs], hv⟩

/-- An instruction does not disturb a register that it does not write, nor read first. -/
theorem Cached.frame {er : EcvReg} {e : Option CacheEntry} {i : BlockInst} (s' : Unoptimised)
    (h : Cached init done s o er e) (hw : ¬ i.writes er) (hr : i.readClass er = none ∨ e ≠ none)
    (hs : s'.regs er = s.regs er) (operands : List Value) (results : List (List Value)) :
    Cached init (done ++ [i]) s' ⟨o.regs, o.operands ++ operands, o.results ++ results⟩ er e := by
  have hwrites : (∀ j ∈ done, ¬ j.writes er) → ∀ j ∈ done ++ [i], ¬ j.writes er := by
    intro hall j hj
    rcases List.mem_append.mp hj with hj | hj
    · exact hall j hj
    · rwa [List.mem_singleton.mp hj]
  cases h with
  | untouched h₁ h₂ h₃ =>
      have hread : i.readClass er = none := hr.resolve_right (fun h => h rfl)
      refine .untouched (hwrites h₁) ?_ (hs.trans h₃)
      rw [List.findSome?_append, h₂]
      simp [hread]
  | read h₁ h₂ h₃ h₄ =>
      have hfetch : o.fetch (.load _) none = some _ := h₄
      refine .read (hwrites h₁) ?_ (hs.trans h₃) (fetch_mono hfetch operands results)
      rw [List.findSome?_append, h₂]
      rfl
  | written h₁ h₂ h₃ =>
      obtain ⟨j, hj, hjw⟩ := h₁
      exact .written ⟨j, List.mem_append_left _ hj, hjw⟩ (fetch_mono h₂ operands results)
        (hs.trans h₃)

/-! ### A read -/

/-- The read of `a` would be right. -/
def ReadRight (init : RegFile) (done : List BlockInst) (a : Access) : Prop :=
  (∀ i ∈ done, ¬ i.writes a.er) → ∀ erc,
    done.findSome? (BlockInst.readClass a.er) = some erc →
      castFromInst (.low erc (init a.er)) a.erc = .low a.erc (init a.er)

/-- The rewritten read: it supplies an operand, which is the unoptimised one exactly when
the read is right. -/
theorem load_spec (h : WidthInv init done s r o) (a : Access) :
    ∃ v, o.step (r.rewrite (.load a)).1 = some { o with operands := o.operands ++ [v] } ∧
      (v = .low a.erc (s.regs a.er) ↔ ReadRight init done a) := by
  have hc := h.cached a.er
  rcases he : r.cur_r_inst_mp a.er with - | e
  · rw [he] at hc
    -- a value that was read may be too narrow, one that was written is whole
    cases hc with
    | untouched h₁ h₂ h₃ =>
        refine ⟨.low a.erc (o.regs a.er), by simp only [Rewriter.rewrite, he, Optimised.step], ?_⟩
        rw [h.regs, h₃]
        exact iff_of_true rfl fun _ erc herc => by simp [h₂] at herc
  · rw [he] at hc
    cases hc with
    | read h₁ h₂ h₃ h₄ =>
        rename_i erc n
        refine ⟨castFromInst (.low erc (init a.er)) a.erc, ?_, ?_⟩
        · simp only [Rewriter.rewrite, he, Optimised.step, CacheEntry.extract, Optimised.fetch,
            h₄, Option.map_some]
        · rw [h₃]
          constructor
          · intro hv _ erc' herc'
            cases h₂.symm.trans herc'
            exact hv
          · exact fun hr => hr h₁ erc h₂
    | written h₁ h₂ h₃ =>
        rename_i v
        refine ⟨castFromInst v a.erc, ?_, ?_⟩
        · simp only [Rewriter.rewrite, he, Optimised.step, h₂, Option.map_some]
        · obtain ⟨i, hi, hiw⟩ := h₁
          exact iff_of_true (castFromInst_of_whole h₃ a.erc) fun hw => absurd hiw (hw i hi)

theorem rewrite_load_of_some {a : Access} {e : CacheEntry} (he : r.cur_r_inst_mp a.er = some e) :
    r.rewrite (.load a) =
      (.reuse e.value e.extract a.erc, { r with loads := r.loads + 1 }) := by
  simp only [Rewriter.rewrite, he]

theorem rewrite_load_of_none {a : Access} (he : r.cur_r_inst_mp a.er = none) :
    r.rewrite (.load a) = (.load a,
      { r with
        cur_r_inst_mp :=
          Function.update r.cur_r_inst_mp a.er (some ⟨a.erc, .load r.loads, 0, false⟩)
        loads := r.loads + 1 }) := by
  simp only [Rewriter.rewrite, he]

theorem readClass_of_ne {a : Access} {er : EcvReg} (h : er ≠ a.er) :
    (BlockInst.load a).readClass er = none := if_neg h.symm

/-- A read keeps the invariant, whether it is kept or replaced. -/
theorem widthInv_load (h : WidthInv init done s r o) (a : Access) :
    WidthInv init (done ++ [.load a]) (s.step (.load a)) (r.rewrite (.load a)).2
      { o with operands := o.operands ++ [.low a.erc (s.regs a.er)] } := by
  have hframe : ∀ {er e}, (BlockInst.load a).readClass er = none ∨ e ≠ none →
      Cached init done s o er e → Cached init (done ++ [.load a]) (s.step (.load a))
        { o with operands := o.operands ++ [.low a.erc (s.regs a.er)] } er e := by
    intro er e hr hc
    simpa using hc.frame (s.step (.load a)) id hr rfl [.low a.erc (s.regs a.er)] []
  have hoperands : o.operands ++ [.low a.erc (s.regs a.er)] = (s.step (.load a)).operands := by
    rw [Unoptimised.step, h.operands]
  have hc := h.cached
  -- the first read of a register enters the cache, a later one takes its value from there
  rcases he : r.cur_r_inst_mp a.er with - | e
  · rw [rewrite_load_of_none he]
    refine ⟨h.regs, hoperands, by simp [h.loads], h.calls, fun er => ?_⟩
    by_cases her : er = a.er
    · subst her
      dsimp only
      rw [Function.update_self]
      have hca := hc a.er
      rw [he] at hca
      cases hca with
      | untouched h₁ h₂ h₃ =>
          refine .read ?_ ?_ h₃ ?_
          · intro i hi
            rcases List.mem_append.mp hi with hi | hi
            · exact h₁ i hi
            · rw [List.mem_singleton.mp hi]
              exact id
          · rw [List.findSome?_append, h₂]
            simp [BlockInst.readClass]
          · rw [h.loads, h₃]
            simp
    · dsimp only
      rw [Function.update_of_ne her]
      exact hframe (.inl (readClass_of_ne her)) (hc er)
  · rw [rewrite_load_of_some he]
    refine ⟨h.regs, hoperands, by simp [h.loads], h.calls, fun er => ?_⟩
    by_cases her : er = a.er
    · subst her
      exact hframe (.inr (by simp [he])) (hc _)
    · exact hframe (.inl (readClass_of_ne her)) (hc er)

/-! ### A call -/

/-- The write that decides what a register holds after a call: the last one. -/
def SemaCall.lastWrite (c : SemaCall) (er : EcvReg) : Option (Access × Nat) :=
  c.writes.zipIdx.reverse.find? fun p => p.1.er = er

theorem foldl_update {β : Type} (f : Access × Nat → β) (er : EcvReg) (l : List (Access × Nat))
    (m : EcvReg → β) :
    l.foldl (fun (m : EcvReg → β) p => Function.update m p.1.er (f p)) m er =
      ((l.reverse.find? fun p => p.1.er = er).map f).getD (m er) := by
  induction l using List.reverseRecOn with
  | nil => rfl
  | append_singleton l q ih =>
      rw [List.foldl_append, List.foldl_cons, List.foldl_nil, List.reverse_append,
        List.reverse_singleton, List.singleton_append]
      by_cases hq : q.1.er = er
      · rw [List.find?_cons_of_pos (by simpa using hq), ← hq, Function.update_self]
        rfl
      · rw [List.find?_cons_of_neg (by simpa using hq), ← ih,
          Function.update_of_ne (Ne.symm hq)]

/-- A register holds the last of the results that were stored to it. -/
theorem storeResults_eq (c : SemaCall) (operands : List Value) (regs : RegFile) (er : EcvReg) :
    c.storeResults operands regs er =
      ((c.lastWrite er).map fun p => (c.result operands p.1 p.2).whole).getD (regs er) :=
  foldl_update _ er c.writes.zipIdx regs

/-- A register is cached as the last of the results that were entered for it. -/
theorem cacheResults_eq (c : SemaCall) (n : Nat) (mp : EcvReg → Option CacheEntry)
    (er : EcvReg) :
    c.cacheResults n mp er =
      ((c.lastWrite er).map fun p => some ⟨p.1.erc, .call n c.writes.length, p.2, true⟩).getD
        (mp er) :=
  foldl_update _ er c.writes.zipIdx mp

theorem writes_of_lastWrite {c : SemaCall} {er : EcvReg} {p : Access × Nat}
    (h : c.lastWrite er = some p) : p ∈ c.writes.zipIdx ∧ (BlockInst.call c).writes er := by
  have hp : p ∈ c.writes.zipIdx := List.mem_reverse.mp (List.mem_of_find?_eq_some h)
  exact ⟨hp, p.1, List.fst_mem_of_mem_zipIdx hp, by simpa using List.find?_some h⟩

theorem not_writes_of_lastWrite {c : SemaCall} {er : EcvReg} (h : c.lastWrite er = none) :
    ¬ (BlockInst.call c).writes er := by
  rintro ⟨a, ha, her⟩
  obtain ⟨i, hi⟩ := List.mem_iff_getElem?.mp ha
  have hp : (a, i) ∈ c.writes.zipIdx.reverse :=
    List.mem_reverse.mpr (List.mem_zipIdx_iff_getElem?.mpr hi)
  simpa [her] using List.find?_eq_none.mp h (a, i) hp

/-- The value of a result, as the cache refers to it. -/
theorem fetch_result (c : SemaCall) {a : Access} {i : Nat} (hp : (a, i) ∈ c.writes.zipIdx)
    (regs : RegFile) (operands : List Value) (results : List (List Value)) :
    (Optimised.mk regs operands (results ++ [c.results operands])).fetch
        (.call results.length c.writes.length)
        (CacheEntry.mk a.erc (.call results.length c.writes.length) i true).extract =
      some (c.result operands a i) := by
  rw [List.mem_zipIdx_iff_getElem?] at hp
  have hi : i < c.writes.length := (List.getElem?_eq_some_iff.mp hp).1
  have hresult : (c.results operands)[i]? = some (c.result operands a i) := by
    rw [SemaCall.results, List.getElem?_map, List.getElem?_zipIdx, hp]
    simp
  simp only [Optimised.fetch, CacheEntry.extract]
  rw [List.getElem?_concat_length, Option.bind_some]
  by_cases hone : c.writes.length = 1
  · have hzero : i = 0 := by omega
    rw [if_pos hone, Option.getD_none, ← hzero, hresult]
  · rw [if_neg hone, Option.getD_some, hresult]

/-- A call keeps the invariant: its results become the latest values. -/
theorem widthInv_call (h : WidthInv init done s r o) (c : SemaCall) :
    WidthInv init (done ++ [.call c]) (s.step (.call c)) (r.rewrite (.call c)).2
      { o with results := o.results ++ [c.results o.operands] } where
  regs := h.regs
  operands := h.operands
  loads := h.loads
  calls := by simp [Rewriter.rewrite, h.calls]
  cached er := by
    change Cached init _ _ _ er (c.cacheResults r.calls r.cur_r_inst_mp er)
    have hregs := storeResults_eq c s.operands s.regs er
    rw [cacheResults_eq]
    rcases hlast : c.lastWrite er with - | p
    · rw [hlast] at hregs
      have hframe := (h.cached er).frame (s.step (.call c)) (not_writes_of_lastWrite hlast)
        (.inl rfl) hregs [] [c.results o.operands]
      simpa using hframe
    · rw [hlast] at hregs
      obtain ⟨hp, hw⟩ := writes_of_lastWrite hlast
      refine .written ⟨.call c, by simp, hw⟩ ?_ hregs
      rw [h.calls, ← h.operands]
      exact fetch_result c hp o.regs o.operands o.results

/-! ### Whole blocks -/

theorem operands_prefix (block : List BlockInst) (s : Unoptimised) :
    s.operands <+: (block.foldl Unoptimised.step s).operands := by
  induction block generalizing s with
  | nil => exact List.prefix_rfl
  | cons i block ih =>
      refine List.IsPrefix.trans ?_ (ih (s.step i))
      cases i with
      | load a => exact List.prefix_append _ _
      | call c => exact List.prefix_rfl

theorem run_operands_prefix {insts : List OptInst} {o o' : Optimised}
    (h : o.run insts = some o') : o.operands <+: o'.operands := by
  induction insts generalizing o with
  | nil =>
      cases h
      exact List.prefix_rfl
  | cons i insts ih =>
      obtain ⟨o₁, hstep, hrun⟩ := Option.bind_eq_some_iff.mp h
      refine List.IsPrefix.trans ?_ (ih hrun)
      cases i with
      | load a =>
          cases hstep
          exact List.prefix_append _ _
      | reuse value extract erc =>
          obtain ⟨v, -, hv⟩ := Option.map_eq_some_iff.mp hstep
          rw [← hv]
          exact List.prefix_append _ _
      | call c =>
          cases hstep
          exact List.prefix_rfl

/-- Every read of `block` would be right, with `done` before it. -/
def ReadsRight (init : RegFile) (done block : List BlockInst) : Prop :=
  ∀ before a after, block = before ++ .load a :: after → ReadRight init (done ++ before) a

theorem readsRight_nil : ReadsRight init done [] := by
  intro before a after h
  simp at h

theorem readsRight_call {c : SemaCall} {block : List BlockInst} :
    ReadsRight init done (.call c :: block) ↔ ReadsRight init (done ++ [.call c]) block := by
  constructor
  · intro h before a after e
    rw [List.append_assoc]
    exact h (.call c :: before) a after (by rw [e]; rfl)
  · intro h before a after e
    rcases before with - | ⟨i, before⟩
    · cases e
    · obtain ⟨rfl, e'⟩ := List.cons.inj e
      simpa using h before a after e'

/-- A read has to be right, and so do those after it. -/
theorem readsRight_load {a : Access} {block : List BlockInst} :
    ReadsRight init done (.load a :: block) ↔
      ReadRight init done a ∧ ReadsRight init (done ++ [.load a]) block := by
  constructor
  · intro h
    refine ⟨by simpa using h [] a block rfl, fun before a' after e => ?_⟩
    rw [List.append_assoc]
    exact h (.load a :: before) a' after (by rw [e]; rfl)
  · rintro ⟨h, hrest⟩ before a' after e
    rcases before with - | ⟨i, before⟩
    · cases e
      simpa using h
    · obtain ⟨rfl, e'⟩ := List.cons.inj e
      simpa using hrest before a' after e'

/-- From a point where both executions agree, they agree to the end exactly when every read
from there on is right. -/
theorem run_eq_iff (block : List BlockInst) (h : WidthInv init done s r o) :
    (o.run (r.optimize block)).map Optimised.operands =
        some (block.foldl Unoptimised.step s).operands ↔ ReadsRight init done block := by
  -- the two executions stay related as long as the values read are right
  induction block generalizing done s r o with
  | nil => exact iff_of_true (congrArg some h.operands) readsRight_nil
  | cons i block ih =>
      rw [Rewriter.optimize, Optimised.run, List.foldl_cons]
      cases i with
      | call c =>
          have hstep : o.step (r.rewrite (.call c)).1 =
              some { o with results := o.results ++ [c.results o.operands] } := rfl
          rw [hstep, Option.bind_some, ih (widthInv_call h c), readsRight_call]
      | load a =>
          obtain ⟨v, hstep, hv⟩ := load_spec h a
          rw [hstep, Option.bind_some, readsRight_load, ← hv]
          by_cases hlow : v = .low a.erc (s.regs a.er)
          · rw [hlow, ih (widthInv_load h a)]
            exact (and_iff_right rfl).symm
          · -- the operand of this read is wrong, and stays in the list
            refine iff_of_false (fun hrun => hlow ?_) (fun hright => hlow hright.1)
            obtain ⟨o', hrun, ho'⟩ := Option.map_eq_some_iff.mp hrun
            have hopt := run_operands_prefix hrun
            have hunopt := operands_prefix block (s.step (.load a))
            rw [ho'] at hopt
            have heq : o.operands ++ [v] = s.operands ++ [.low a.erc (s.regs a.er)] := by
              refine (List.prefix_of_prefix_length_le hopt hunopt ?_).eq_of_length ?_
              · simp [Unoptimised.step, h.operands]
              · simp [Unoptimised.step, h.operands]
            rw [h.operands] at heq
            exact (List.cons.inj (List.append_cancel_left heq)).1

/-- **The forwarded operands have the right width exactly when no register is read, before
it is written, by a class wider than that of its first read.** -/
theorem operands_eq_iff (block : List BlockInst) :
    (∀ regs, optimisedOperands regs block = some (unoptimisedOperands regs block)) ↔
      FirstReadWidest block := by
  have hrun : ∀ regs, optimisedOperands regs block = some (unoptimisedOperands regs block) ↔
      ReadsRight regs [] block := fun regs => run_eq_iff block (widthInv_start regs)
  simp only [hrun]
  constructor
  · intro h done a rest hblock hw erc herc
    refine ERCSize_le_of_cast (BitVec.allOnes 128) (fun i hi => ?_)
      (h (fun _ => BitVec.allOnes 128) done a rest hblock hw erc herc)
    rw [BitVec.getLsbD_allOnes, decide_eq_true hi]
  · intro h regs done a rest hblock hw erc herc
    exact castFromInst_low (h done a rest hblock hw erc herc) (regs a.er)

/-- `X0` read behind `W0`: the bit above the 32 that `W0` reads is lost. -/
theorem operands_not_eq :
    optimisedOperands (fun _ => 0x100000000)
        [.load ⟨⟨.General, 0⟩, .RegW, rfl⟩, .load ⟨⟨.General, 0⟩, .RegX, rfl⟩] ≠
      some (unoptimisedOperands (fun _ => 0x100000000)
        [.load ⟨⟨.General, 0⟩, .RegW, rfl⟩, .load ⟨⟨.General, 0⟩, .RegX, rfl⟩]) := by
  decide

end Elfconv
