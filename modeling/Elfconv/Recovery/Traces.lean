/-
Elfconv/Recovery/Traces.lean

`TraceLifter::Impl::Lift` over all functions it reaches.

Lifting a function puts the functions it calls directly on `trace_work_list`, so one call
of `Lift` lifts everything reachable by direct calls that is not lifted yet.
`lift_exact_iff` is the result for a whole call: it returns, with the specified graph for
every function reached, exactly when every one of them is liftable.
-/
import Elfconv.Recovery.Recover
import Mathlib.Data.Set.Finite.Lattice
import Mathlib.Data.Fintype.Prod

namespace Elfconv

variable {m : TraceManager} {t₀ t : TraceLifter} {f : Addr}

/-- The functions a call `Lift(f)` gets to, from the lifter state `t₀`. -/
inductive Reached (m : TraceManager) (t₀ : TraceLifter) (f : Addr) : Addr → Prop
  | root : Reached m t₀ f f
  | call {g a c : Addr} : Reached m t₀ f g → t₀.traces g = none → Member m g a →
      c ∈ callees m g a → Reached m t₀ f c

/-- What is called is the entry of a function. -/
theorem isFunctionEntry_of_callee {g a c : Addr} (h : c ∈ callees m g a) :
    m.isFunctionEntry c = true := by
  unfold callees at h
  split at h
  · rename_i inst _
    unfold Instruction.callees at h
    split at h
    · rename_i hc
      rw [List.mem_singleton.mp h]
      exact hc.2.1
    · simp at h
  · simp at h

/-! ### The patch flag -/

/-- Other functions are not patched. -/
theorem patches_of_ne {flag : Bool} (h : f ≠ m.io_file_xsputn_vma) :
    patches m f flag = false := by
  simp only [patches, Bool.and_eq_false_imp, beq_eq_false_iff_ne]
  exact fun _ => h.symm

/-- A function that the patch is not for leaves the flag alone. -/
theorem patch_of_halts {flag : Bool} {s : Lifting} (hp : patches m f flag = false)
    (h : Machine.Halts (liftStep m f) (.init f flag) (.ok s)) :
    s.tmp_patch_fn_check = flag := by
  refine Machine.inv_of_halts (I := fun s => s.tmp_patch_fn_check = flag)
    (Q := fun r => ∀ s, r = .ok s → s.tmp_patch_fn_check = flag) ?_ ?_ rfl h s rfl
  · intro s s' hs hstep
    cases turn_of_step hstep with
    | slot => exact hs
    | slotsDone => exact hs
    | skip => exact hs
    | slots => exact hs
    -- the only turn that may set the flag, at the entry of the patched function
    | lift a rest e hv hw ha he =>
        have hpatched : e.patched = false := by
          by_contra h
          have := (liftInst_spec.1 e he).2.2 (by simpa using h)
          simp [hs, hp] at this
        have hflag : (s.lifted rest a e).tmp_patch_fn_check =
            (s.tmp_patch_fn_check || e.patched) := (grown_lifted s rest a e).patch
        rw [hflag, hpatched, hs, Bool.or_false]
  · intro s r hs hstop s' hr
    cases stop_of_step hstop with
    | done =>
        cases hr
        exact hs
    | store => cases hr
    | mapped => cases hr
    | crash => cases hr

/-! ### The invariant -/

/-- The invariant of the loop over `trace_work_list`, entered with `f` in the state `t₀`. -/
structure TracesInv (m : TraceManager) (t₀ : TraceLifter) (f : Addr) (t : TraceLifter) :
    Prop where
  work : ∀ g ∈ t.trace_work_list, Reached m t₀ f g
  entry : ∀ g ∈ t.trace_work_list, m.isFunctionEntry g = true
  root : f ∈ t.trace_work_list ∨ t.traces f ≠ none
  keep : ∀ g s, t₀.traces g = some s → t.traces g = some s
  lifted : ∀ g s, t₀.traces g = none → t.traces g = some s →
    Recovered m g s ∧ Liftable m g t₀.tmp_patch_fn_check ∧
      ∀ a c, Member m g a → c ∈ callees m g a → c ∈ t.trace_work_list ∨ t.traces c ≠ none
  patch : t.traces m.io_file_xsputn_vma = none →
    t.tmp_patch_fn_check = t₀.tmp_patch_fn_check

/-- The state after the function at `g`, popped from `g :: rest`, was lifted into `s`. -/
def TraceLifter.traced (t : TraceLifter) (rest : List Addr) (g : Addr) (s : Lifting) :
    TraceLifter where
  trace_work_list := s.callees.foldr setInsert rest
  traces := fun a => if a = g then some s else t.traces a
  tmp_patch_fn_check := s.tmp_patch_fn_check

/-- The callees are added to the work list. -/
theorem mem_foldr_setInsert {c : Addr} {cs rest : List Addr} :
    c ∈ cs.foldr setInsert rest ↔ c ∈ cs ∨ c ∈ rest := by
  induction cs with
  | nil => simp
  | cons d cs ih => rw [List.foldr_cons, mem_setInsert, ih, List.mem_cons, or_assoc]

/-- The invariant holds at the start. -/
theorem tracesInv_init (hf : m.isFunctionEntry f = true) :
    TracesInv m t₀ f { t₀ with trace_work_list := [f] } where
  work g hg := by
    rw [List.mem_singleton.mp hg]
    exact .root
  entry g hg := by
    rw [List.mem_singleton.mp hg]
    exact hf
  root := .inl List.mem_cons_self
  keep _ _ h := h
  lifted g s h h' := by
    change t₀.traces g = some s at h'
    simp [h] at h'
  patch _ := rfl

/-- What has no trace had none at the start. -/
theorem TracesInv.untraced {g : Addr} (hi : TracesInv m t₀ f t) (hg : t.traces g = none) :
    t₀.traces g = none := by
  by_contra h₀
  obtain ⟨s₀, hs₀⟩ := Option.ne_none_iff_exists'.mp h₀
  have hkept := hi.keep g s₀ hs₀
  rw [hg] at hkept
  cases hkept

/-- Where the patched function is still not lifted, the flag is as before. -/
theorem patch_traced {g : Addr} {rest : List Addr} {s : Lifting}
    (hx : (t.traced rest g s).traces m.io_file_xsputn_vma = none)
    (h : Machine.Halts (liftStep m g) (.init g t.tmp_patch_fn_check) (.ok s)) :
    t.traces m.io_file_xsputn_vma = none ∧ s.tmp_patch_fn_check = t.tmp_patch_fn_check := by
  have hne : m.io_file_xsputn_vma ≠ g := by
    rintro rfl
    simp [TraceLifter.traced] at hx
  refine ⟨?_, patch_of_halts (patches_of_ne hne.symm) h⟩
  simpa [TraceLifter.traced, hne] using hx

/-- A function that is lifted already is passed over. -/
theorem tracesInv_skip {g : Addr} {rest : List Addr} (hi : TracesInv m t₀ f t)
    (hw : t.trace_work_list = g :: rest) (hg : t.traces g ≠ none) :
    TracesInv m t₀ f { t with trace_work_list := rest } := by
  have hpop : ∀ c, c ∈ t.trace_work_list ∨ t.traces c ≠ none → c ∈ rest ∨ t.traces c ≠ none := by
    rintro c (hc | hc)
    · rw [hw] at hc
      rcases List.mem_cons.mp hc with rfl | hc
      · exact .inr hg
      · exact .inl hc
    · exact .inr hc
  refine ⟨fun c hc => hi.work c ?_, fun c hc => hi.entry c ?_, hpop f hi.root, hi.keep, ?_,
    hi.patch⟩
  · rw [hw]
    exact List.mem_cons_of_mem _ hc
  · rw [hw]
    exact List.mem_cons_of_mem _ hc
  · intro c s h₀ h
    obtain ⟨hrec, hlift, hcall⟩ := hi.lifted c s h₀ h
    exact ⟨hrec, hlift, fun a d ha hd => hpop d (hcall a d ha hd)⟩

/-- The flag a function is entered with makes no difference to its being liftable. -/
theorem liftable_iff {g : Addr} (hi : TracesInv m t₀ f t) (hg : t.traces g = none) :
    Liftable m g t.tmp_patch_fn_check ↔ Liftable m g t₀.tmp_patch_fn_check := by
  by_cases hx : g = m.io_file_xsputn_vma
  · rw [hi.patch (hx ▸ hg)]
  · exact ⟨.of_ne hx, .of_ne hx⟩

/-- A function is lifted, and its callees are added. -/
theorem tracesInv_traced {g : Addr} {rest : List Addr} {s : Lifting}
    (hi : TracesInv m t₀ f t) (hw : t.trace_work_list = g :: rest) (hg : t.traces g = none)
    (h : Machine.Halts (liftStep m g) (.init g t.tmp_patch_fn_check) (.ok s)) :
    TracesInv m t₀ f (t.traced rest g s) := by
  obtain ⟨hrec, hliftable⟩ := recovered_of_halts h s rfl
  have hg₀ := hi.untraced hg
  have hreach : Reached m t₀ f g := hi.work g (by rw [hw]; exact List.mem_cons_self)
  have hrest : ∀ c ∈ rest, c ∈ t.trace_work_list := by
    intro c hc
    rw [hw]
    exact List.mem_cons_of_mem _ hc
  -- the work list afterwards: the callees of the trace and what was left
  have hwork : ∀ c, c ∈ (t.traced rest g s).trace_work_list ↔
      (∃ a, Member m g a ∧ c ∈ callees m g a) ∨ c ∈ rest := by
    intro c
    rw [← hrec.callees]
    exact mem_foldr_setInsert
  have htraced : ∀ c, t.traces c ≠ none → (t.traced rest g s).traces c ≠ none := by
    intro c hc
    by_cases hcg : c = g
    · simp [TraceLifter.traced, hcg]
    · simpa [TraceLifter.traced, hcg] using hc
  -- nothing on the list or traced is lost
  have hstill : ∀ c, c ∈ t.trace_work_list ∨ t.traces c ≠ none →
      c ∈ (t.traced rest g s).trace_work_list ∨ (t.traced rest g s).traces c ≠ none := by
    rintro c (hc | hc)
    · rw [hw] at hc
      rcases List.mem_cons.mp hc with rfl | hc
      · exact .inr (by simp [TraceLifter.traced])
      · exact .inl ((hwork c).mpr (.inr hc))
    · exact .inr (htraced c hc)
  refine ⟨fun c hc => ?_, fun c hc => ?_, hstill f hi.root, fun c s₀ hc => ?_,
    fun c s' h₀ h' => ?_, fun hx => ?_⟩
  · -- a function on the list is reached: it is called from a traced one
    rcases (hwork c).mp hc with ⟨a, ha, hca⟩ | hc
    · exact .call hreach hg₀ ha hca
    · exact hi.work c (hrest c hc)
  · rcases (hwork c).mp hc with ⟨a, -, hca⟩ | hc
    · exact isFunctionEntry_of_callee hca
    · exact hi.entry c (hrest c hc)
  · have hne : c ≠ g := by
      rintro rfl
      simp [hg₀] at hc
    simpa [TraceLifter.traced, hne] using hi.keep c s₀ hc
  · -- a trace that is there is the new one or an old one
    by_cases hcg : c = g
    · subst hcg
      have hs : s = s' := by simpa [TraceLifter.traced] using h'
      subst hs
      exact ⟨hrec, (liftable_iff hi hg).mp hliftable,
        fun a d ha hd => .inl ((hwork d).mpr (.inl ⟨a, ha, hd⟩))⟩
    · obtain ⟨hrec', hlift', hcall'⟩ := hi.lifted c s' h₀ (by
        simpa [TraceLifter.traced, hcg] using h')
      exact ⟨hrec', hlift', fun a d ha hd => hstill d (hcall' a d ha hd)⟩
  · obtain ⟨hx', hflag⟩ := patch_traced hx h
    exact hflag.trans (hi.patch hx')

/-! ### A whole call of `Lift` -/

/-- With an empty work list the loop ends. -/
theorem liftTraces_nil {n : Nat} (hw : t.trace_work_list = []) :
    liftTraces m (n + 1) t = some (.ok t) := by
  simp only [liftTraces, hw]

/-- One function from the work list. -/
theorem liftTraces_cons {n : Nat} {g : Addr} {rest : List Addr}
    (hw : t.trace_work_list = g :: rest) :
    liftTraces m (n + 1) t =
      if (t.traces g).isSome then liftTraces m n { t with trace_work_list := rest }
      else if m.isFunctionEntry g then
        match Machine.run (liftStep m g) n (.init g t.tmp_patch_fn_check) with
        | none => none
        | some (.error c) => some (.error c)
        | some (.ok s) => liftTraces m n (t.traced rest g s)
      else some (.error .declaration) := by
  simp only [liftTraces, hw]
  rfl

/-- The invariant holds of the state in which the loop returns, with an empty work list. -/
theorem tracesInv_of_liftTraces {n : Nat} {t' : TraceLifter} (hi : TracesInv m t₀ f t)
    (h : liftTraces m n t = some (.ok t')) :
    TracesInv m t₀ f t' ∧ t'.trace_work_list = [] := by
  induction n generalizing t with
  | zero => cases h
  | succ n ih =>
      rcases hw : t.trace_work_list with - | ⟨g, rest⟩
      · rw [liftTraces_nil hw] at h
        cases h
        exact ⟨hi, hw⟩
      · rw [liftTraces_cons hw] at h
        rcases hg : t.traces g with - | s
        · rw [hg, if_neg (by simp), if_pos (hi.entry g (by rw [hw]; exact List.mem_cons_self))]
            at h
          split at h
          · cases h
          · cases h
          · rename_i s hrun
            exact ih (tracesInv_traced hi hw hg ⟨n, hrun⟩) h
        · rw [hg, if_pos Option.isSome_some] at h
          exact ih (tracesInv_skip hi hw (by simp [hg])) h

/-- When the loop returns, every function it got to is lifted. -/
theorem TracesInv.traced_of_reached (hi : TracesInv m t₀ f t) (hw : t.trace_work_list = [])
    {g : Addr} (h : Reached m t₀ f g) : t.traces g ≠ none := by
  induction h with
  | root => exact hi.root.resolve_left (by simp [hw])
  | call _ hnew ha hc ih =>
      obtain ⟨s, hs⟩ := Option.ne_none_iff_exists'.mp ih
      exact ((hi.lifted _ s hnew hs).2.2 _ _ ha hc).resolve_left (by simp [hw])

/-- Enough fuel for every liftable function. -/
theorem exists_fuel (m : TraceManager) : ∃ n, ∀ g flag, Liftable m g flag →
    ∃ s, Machine.run (liftStep m g) n (.init g flag) = some (.ok s) := by
  classical
  have hone : ∀ p : Addr × Bool, ∃ n, Liftable m p.1 p.2 →
      ∃ s, Machine.run (liftStep m p.1) n (.init p.1 p.2) = some (.ok s) := by
    rintro ⟨g, flag⟩
    by_cases hl : Liftable m g flag
    · obtain ⟨s, n, hn⟩ := halts_of_liftable hl
      exact ⟨n, fun _ => ⟨s, hn⟩⟩
    · exact ⟨0, fun h => absurd h hl⟩
  choose fuel hfuel using hone
  obtain ⟨n, hn⟩ := (Set.finite_range fuel).bddAbove
  refine ⟨n, fun g flag hl => ?_⟩
  obtain ⟨s, hs⟩ := hfuel (g, flag) hl
  have hle : fuel (g, flag) ≤ n := hn (Set.mem_range_self _)
  obtain ⟨k, hk⟩ := Nat.exists_eq_add_of_le hle
  exact ⟨s, by rw [hk]; exact Machine.run_mono hs⟩

/-- The functions that are still to be lifted, and the work. -/
noncomputable def tracesMeasure (t : TraceLifter) : Nat × Nat :=
  ((Finset.univ.filter fun a => t.traces a = none).card, t.trace_work_list.length)

/-- A function that is lifted leaves fewer to lift. -/
theorem tracesMeasure_traced {g : Addr} (rest : List Addr) (s : Lifting)
    (hg : t.traces g = none) :
    Prod.Lex (· < ·) (· < ·) (tracesMeasure (t.traced rest g s)) (tracesMeasure t) := by
  refine .left _ _ (Finset.card_lt_card ?_)
  refine Finset.ssubset_iff_of_subset (fun a ha => ?_) |>.mpr ⟨g, ?_, ?_⟩
  · rw [Finset.mem_filter] at ha ⊢
    refine ⟨ha.1, ?_⟩
    have ha' := ha.2
    simp only [TraceLifter.traced] at ha'
    split at ha'
    · cases ha'
    · exact ha'
  · rw [Finset.mem_filter]
    exact ⟨Finset.mem_univ _, hg⟩
  · rw [Finset.mem_filter]
    simp [TraceLifter.traced]

/-- If every function reached is liftable, the loop returns. -/
theorem liftTraces_total (hl : ∀ g, Reached m t₀ f g → t₀.traces g = none →
    Liftable m g t₀.tmp_patch_fn_check) (hi : TracesInv m t₀ f t) :
    ∃ n t', liftTraces m n t = some (.ok t') := by
  -- one amount of fuel is enough for the lifting of any function
  obtain ⟨fuel, hfuel⟩ := exists_fuel m
  suffices h : ∃ k t', liftTraces m (fuel + k + 1) t = some (.ok t') by
    obtain ⟨k, t', ht'⟩ := h
    exact ⟨_, t', ht'⟩
  have hwf : WellFounded (Prod.Lex (· < ·) (· < ·) : Nat × Nat → Nat × Nat → Prop) :=
    WellFounded.prod_lex Nat.lt_wfRel.wf Nat.lt_wfRel.wf
  -- on the functions without a trace, then on the length of the work list
  induction hμ : tracesMeasure t using hwf.induction generalizing t with
  | h μ ih =>
      subst hμ
      rcases hw : t.trace_work_list with - | ⟨g, rest⟩
      · exact ⟨0, t, liftTraces_nil hw⟩
      rcases hg : t.traces g with - | s
      · have hmem : g ∈ t.trace_work_list := by rw [hw]; exact List.mem_cons_self
        have hg₀ := hi.untraced hg
        obtain ⟨s, hs⟩ := hfuel g _ ((liftable_iff hi hg).mpr (hl g (hi.work g hmem) hg₀))
        obtain ⟨k, t', ht'⟩ := ih _ (tracesMeasure_traced rest s hg)
          (tracesInv_traced hi hw hg ⟨fuel, hs⟩) rfl
        refine ⟨k + 1, t', ?_⟩
        rw [show fuel + (k + 1) + 1 = fuel + k + 1 + 1 by omega, liftTraces_cons hw, hg,
          if_neg (by simp), if_pos (hi.entry g hmem), Nat.add_assoc fuel k 1,
          Machine.run_mono hs]
        exact ht'
      · have hlt : Prod.Lex (· < ·) (· < ·)
            (tracesMeasure { t with trace_work_list := rest }) (tracesMeasure t) := by
          rw [tracesMeasure, tracesMeasure, hw]
          exact .right _ (by simp)
        obtain ⟨k, t', ht'⟩ := ih _ hlt (tracesInv_skip hi hw (by simp [hg])) rfl
        refine ⟨k + 1, t', ?_⟩
        rw [show fuel + (k + 1) + 1 = fuel + k + 1 + 1 by omega, liftTraces_cons hw, hg,
          if_pos Option.isSome_some]
        exact ht'

/-- Every function a call gets to is liftable, if the call returns. -/
theorem liftable_of_lift (hf : m.isFunctionEntry f = true) {fuel : Nat} {t' : TraceLifter}
    (h : t₀.lift m fuel f = some (.ok t')) {g : Addr} (hg : Reached m t₀ f g)
    (hnew : t₀.traces g = none) : Liftable m g t₀.tmp_patch_fn_check := by
  obtain ⟨hi, hw⟩ := tracesInv_of_liftTraces (tracesInv_init hf) h
  obtain ⟨s, hs⟩ := Option.ne_none_iff_exists'.mp (hi.traced_of_reached hw hg)
  exact (hi.lifted g s hnew hs).2.1

/-- **Control-flow recovery is exact where the lifter is not brought down**: a call
`Lift(f)` returns, with the specified graph for every function it gets to, exactly when
every one of these functions is liftable. -/
theorem lift_exact_iff (hf : m.isFunctionEntry f = true) :
    (∃ fuel t', t₀.lift m fuel f = some (.ok t') ∧
      ∀ g, Reached m t₀ f g → t₀.traces g = none →
        ∃ s, t'.traces g = some s ∧ Recovered m g s) ↔
    ∀ g, Reached m t₀ f g → t₀.traces g = none → Liftable m g t₀.tmp_patch_fn_check := by
  constructor
  · rintro ⟨fuel, t', ht', -⟩ g hg hnew
    exact liftable_of_lift hf ht' hg hnew
  · intro hl
    obtain ⟨fuel, t', ht'⟩ := liftTraces_total hl (tracesInv_init hf)
    refine ⟨fuel, t', ht', fun g hg hnew => ?_⟩
    obtain ⟨hi, hw⟩ := tracesInv_of_liftTraces (tracesInv_init hf) ht'
    obtain ⟨s, hs⟩ := Option.ne_none_iff_exists'.mp (hi.traced_of_reached hw hg)
    exact ⟨s, hs, (hi.lifted g s hnew hs).1⟩

/-! ### Branches through a register -/

/-- `RegNameXW` for a 64-bit register that is read. -/
def regNameX (useAsValue : Bool) (number : BitVec 5) : String :=
  if number = 31 then if useAsValue then "XZR" else "SP" else "X" ++ toString number.toNat

/-- What the block of such an instruction loads: the zero register is a constant. -/
def loadsOf (name : String) : List String := if name = "XZR" then [] else [name]

/-- The decoder on the words of `BL`, `BR`, `BLR` and `RET`; it rejects every other word here.
The calls write the link register, and `RET` writes `PC`. -/
def branchArch : Arch := fun pc bytes =>
  let word : BitVec 32 := bytes.foldr (fun byte w => w <<< 8 ||| byte.setWidth 32) 0
  let Rn : BitVec 5 := word.extractLsb' 5 5
  let next_pc := pc + 4
  let decoded (inst : Instruction) (loads : List String) (write_regs : List WriteReg) :=
    some { inst, lifted := true, loads, write_regs }
  let invalid := some
    { inst := ⟨.invalid, next_pc, 0, 0⟩, lifted := false, loads := [], write_regs := [] }
  if bytes.length = 4 ∧ pc.toNat % 4 = 0 then
    if word &&& 0xfc000000 = 0x94000000 then
      let imm : BitVec 28 := word.extractLsb' 0 26 ++ 0#2
      decoded ⟨.directFunctionCall, next_pc, pc + imm.signExtend 64, next_pc⟩ [] [⟨false, true⟩]
    else if word &&& 0xfffffc1f = 0xd61f0000 then
      -- `TryDecodeBR_64_BRANCH_REG` reads the register as an address
      decoded ⟨.indirectJump, next_pc, 0, 0⟩ (loadsOf (regNameX false Rn)) []
    else if word &&& 0xfffffc1f = 0xd63f0000 then
      decoded ⟨.indirectFunctionCall, next_pc, 0, next_pc⟩ (loadsOf (regNameX true Rn))
        [⟨false, true⟩]
    else if word &&& 0xfffffc1f = 0xd65f0000 then
      decoded ⟨.functionReturn, next_pc, 0, 0⟩ (loadsOf (regNameX true Rn)) [⟨false, true⟩]
    else invalid
  else invalid

/-- An image of functions with their words. -/
def words (arch : Arch) (functions : List (Addr × List (BitVec 32))) : TraceManager where
  memory a := functions.findSome? fun (entry, ws) =>
    let offset := (a - entry).toNat
    ws[offset / 4]?.map fun w => w.extractLsb' (8 * (offset % 4)) 8
  disasm_funcs a := (functions.lookup a).map fun ws => BitVec.ofNat 64 (4 * ws.length)
  io_file_xsputn_vma := 0
  arch := arch

/-- A function with `BL` to the other one, `BLR X1` and `BR X0`, and one that returns. -/
def dispatcher (arch : Arch) : TraceManager :=
  words arch [(0x1000#64, [0x94000003#32, 0xd63f0020#32, 0xd61f0000#32]),
    (0x100c#64, [0xd65f03c0#32])]

/-- Its instructions, as they are lifted. -/
def dispatcherInsts : List (Addr × LiftedInst) :=
  [(0x1000#64, ⟨⟨.directFunctionCall, 0x1004#64, 0x100c#64, 0x1004#64⟩, true, [], [⟨false, true⟩]⟩),
    (0x1004#64, ⟨⟨.indirectFunctionCall, 0x1008#64, 0#64, 0x1008#64⟩, true, ["X1"],
      [⟨false, true⟩]⟩),
    (0x1008#64, ⟨⟨.indirectJump, 0x100c#64, 0#64, 0#64⟩, true, ["X0"], []⟩),
    (0x100c#64, ⟨⟨.functionReturn, 0x1010#64, 0#64, 0#64⟩, true, ["X30"], [⟨false, true⟩]⟩)]

section Dispatcher

variable {arch : Arch}

/-- The two functions of the program. -/
theorem isFunctionEntry_dispatcher :
    f ∈ [0x1000#64, 0x100c#64] ↔ (dispatcher arch).isFunctionEntry f = true := by
  rw [List.mem_pair]
  by_cases h₀ : f = 0x1000#64
  · subst h₀
    exact iff_of_true (.inl rfl) rfl
  by_cases h₁ : f = 0x100c#64
  · subst h₁
    exact iff_of_true (.inr rfl) rfl
  · simp [TraceManager.isFunctionEntry, dispatcher, words, List.lookup_cons, h₀, h₁,
      beq_eq_false_iff_ne.mpr h₀, beq_eq_false_iff_ne.mpr h₁]

/-- Every slot holds an instruction. -/
theorem slot_dispatcher {b : Addr} (hf : f ∈ [0x1000#64, 0x100c#64])
    (h : Slot (dispatcher arch) f b) : b ∈ dispatcherInsts.map Prod.fst := by
  obtain ⟨k, hk, rfl⟩ := h
  rcases List.mem_pair.mp hf with rfl | rfl
  · have hk3 : 0x1000 + 4 * k < 0x100c := hk
    obtain rfl | rfl | rfl : k = 0 ∨ k = 1 ∨ k = 2 := by omega
    all_goals decide
  · have hk1 : 0x100c + 4 * k < 0x1010 := hk
    obtain rfl : k = 0 := by omega
    decide

/-- Its functions are liftable, if the decoder and the lifter have its instructions. -/
theorem liftable_dispatcher (harch : ∀ x ∈ dispatcherInsts,
      arch x.1 ((dispatcher arch).readInstructionBytes x.1) = some x.2)
    (hf : f ∈ [0x1000#64, 0x100c#64]) : Liftable (dispatcher arch) f false := by
  refine liftable_of_closed (S := dispatcherInsts.map Prod.fst)
    (List.Sublist.subset (by decide) hf) ?_ (fun b hb => slot_dispatcher hf hb) ?_
  · rw [List.forall_mem_map]
    intro x hx
    refine ⟨x.2, harch x hx, ?_⟩
    revert x
    simp only [dispatcherInsts, List.forall_mem_cons]
    refine ⟨?_, ?_, ?_, ?_, fun _ h => nomatch h⟩
    all_goals exact ⟨⟨rfl, by decide, by decide⟩, rfl, by simp [Instruction.successors]⟩
  · rcases List.mem_pair.mp hf with rfl | rfl
    · exact (by decide : ¬ 2 ^ 64 - 4 + 0x1000 % 4 < 0x100c)
    · exact (by decide : ¬ 2 ^ 64 - 4 + 0x100c % 4 < 0x1010)

end Dispatcher

/-- The decoder of the branches takes the words for these instructions. -/
theorem branchArch_dispatcher : ∀ x ∈ dispatcherInsts,
    branchArch x.1 ((dispatcher branchArch).readInstructionBytes x.1) = some x.2 := by
  simp only [dispatcherInsts, List.forall_mem_cons]
  refine ⟨?_, ?_, ?_, ?_, fun _ h => nomatch h⟩
  all_goals rfl

/-- The lifter before the first function. -/
def TraceLifter.start : TraceLifter where
  trace_work_list := []
  traces := fun _ => none
  tmp_patch_fn_check := false

/-- A function with calls and an indirect branch is lifted, with the function it calls. -/
theorem lift_exact_iff_dispatcher : ∃ fuel t',
    TraceLifter.start.lift (dispatcher branchArch) fuel 0x1000#64 = some (.ok t') ∧
      ∀ g, Reached (dispatcher branchArch) .start 0x1000#64 g →
        TraceLifter.start.traces g = none →
        ∃ s, t'.traces g = some s ∧ Recovered (dispatcher branchArch) g s := by
  refine (lift_exact_iff (by decide)).mpr fun g hg _ =>
    liftable_dispatcher branchArch_dispatcher ?_
  cases hg with
  | root => decide
  | call _ _ _ hc => exact isFunctionEntry_dispatcher.mpr (isFunctionEntry_of_callee hc)

/-- `BR XZR` brings the lifter down: the decoder reads register 31 as `SP`, and
`FindIndirectBrAddress` aborts. -/
theorem lift_not_exact : ¬ ∃ fuel t',
    TraceLifter.start.lift (words branchArch [(0x1000#64, [0xd61f03e0#32])]) fuel 0x1000#64 =
      some (.ok t') := by
  rintro ⟨fuel, t', h⟩
  have hl := liftable_of_lift (by decide) h .root rfl
  rcases hl.harmless _ .entry with ⟨hne, -⟩ | hbytes | ⟨l, harch, hl⟩
  · exact hne rfl
  · exact absurd hbytes (by decide)
  · cases harch
    have := (hl rfl).indirect rfl
    revert this
    decide

end Elfconv
