/-
Elfconv/Recovery/Blocks.lean

What is in the blocks of a lifted program.

`Recovered` says which addresses have a block and where the blocks lead to.  Here the
blocks themselves are determined: `Emits` says that the block of each member is what the
loop body emits there.  Only the entry of `_IO_file_xsputn` can receive the patch, since the
patch goes to the first instruction that is lifted.

`liftAll` is the loop of `main` over the disassembled functions.  A `LiftedImage` is what
it leaves: every function lifted, every block known, and the tables of the indirect
branches built from the lifted functions.
-/
import Elfconv.Recovery.IndirectBr

namespace Elfconv

open Lifting

variable {m : TraceManager} {f : Addr} {flag : Bool} {s s' : Lifting}

/-! ### The blocks of one function -/

/-- The flag of the patch, where `a` is lifted: it was set before unless `a` is the entry. -/
def flagAt (f : Addr) (flag : Bool) (a : Addr) : Bool := flag || a != f

/-- Each lifted address has the block that the loop body emits for it. -/
def Emits (m : TraceManager) (f : Addr) (flag : Bool) (s : Lifting) : Prop :=
  ∀ a ∈ s.bb_reg_info_node_map,
    ∃ e, liftInst m f (flagAt f flag a) a = .ok e ∧ s.blocks a = some e.block

/-- The flag matters only through the patch. -/
theorem liftInst_congr {flag' : Bool} (a : Addr) (h : patches m f flag = patches m f flag') :
    liftInst m f flag a = liftInst m f flag' a := by
  unfold patches at h
  simp only [liftInst, h]

/-- What is patched already is not patched again. -/
theorem patches_true : patches m f true = false := rfl

/-- At the start there is no block to look at. -/
theorem emits_init : Emits m f flag (.init f flag) := by
  intro a ha
  simp [Lifting.init] at ha

/-- A turn that leaves the lifted addresses and the blocks alone. -/
theorem Emits.of_eq (h : Emits m f flag s)
    (hnodes : s'.bb_reg_info_node_map = s.bb_reg_info_node_map)
    (hblocks : s'.blocks = s.blocks) : Emits m f flag s' := by
  intro a ha
  rw [hblocks]
  exact h a (hnodes ▸ ha)

/-- A block that is lifted is the one its address stands for. -/
theorem emits_lift {a : Addr} {rest : List Addr} {e : Emitted} (hi : LiftInv m f flag s)
    (h : Emits m f flag s) (hw : s.inst_work_list = a :: rest)
    (ha : a ∉ s.bb_reg_info_node_map) (he : liftInst m f s.tmp_patch_fn_check a = .ok e) :
    Emits m f flag (s.lifted rest a e) := by
  have g := grown_lifted s rest a e
  have hnodes : (s.lifted rest a e).bb_reg_info_node_map = a :: s.bb_reg_info_node_map := g.nodes
  -- the address is the entry, lifted with `flag`, or no patch is pending
  have hflag : liftInst m f (flagAt f flag a) a = .ok e := by
    rcases hi.pop hw with ⟨-, rfl, -, hflag⟩ | ⟨hf, hp⟩
    · rw [flagAt, bne_self_eq_false, Bool.or_false, ← hflag]
      exact he
    · have hne : (a != f) = true := by
        rw [bne_iff_ne]
        rintro rfl
        exact ha hf
      rw [flagAt, hne, Bool.or_true, liftInst_congr a (patches_true.trans hp.symm)]
      exact he
  intro b hb
  rw [hnodes] at hb
  by_cases hba : b = a
  · subst hba
    exact ⟨e, hflag, g.keep _ _ (by simp [emit])⟩
  · obtain ⟨e', he', hblock⟩ := h b ((List.mem_cons.mp hb).resolve_left hba)
    exact ⟨e', he', g.keep _ _ (by simp [emit, hba, hblock])⟩

/-- The blocks stay right in a turn of the loop, by cases on what it did. -/
theorem emits_turn (hi : LiftInv m f flag s) (h : Emits m f flag s) (ht : Turn m f s s') :
    Emits m f flag s' := by
  cases ht with
  | slot => exact h.of_eq rfl rfl
  | slotsDone => exact h.of_eq rfl rfl
  | skip => exact h.of_eq rfl rfl
  | slots => exact h.of_eq rfl rfl
  | lift a rest e hv hw ha he => exact emits_lift hi h hw ha he

/-- When the lifting of a function returns, its blocks are those that were emitted. -/
theorem emits_of_halts (h : Machine.Halts (liftStep m f) (.init f flag) (.ok s)) :
    Emits m f flag s := by
  refine Machine.inv_of_halts
    (I := fun s => LiftInv m f flag s ∧ Emits m f flag s ∨ Stuck m f s)
    (Q := fun r => ∀ s, r = .ok s → Emits m f flag s) ?_ ?_ (.inl ⟨liftInv_init, emits_init⟩)
    h s rfl
  · rintro s s' (⟨hi, he⟩ | hst) hstep
    · have ht := turn_of_step hstep
      exact (liftInv_turn hi ht).imp (fun hi' => ⟨hi', emits_turn hi he ht⟩) id
    · exact .inr (stuck_turn hst (turn_of_step hstep))
  · rintro s r (⟨hi, he⟩ | hst) hstop s' rfl
    · cases stop_of_step hstop with
      | done hv hw hall =>
          rw [addMissingTerminators_eq hi hw]
          exact he
    · obtain ⟨v, hv, -⟩ := hst.cursor
      cases stop_of_step hstop with
      | done hv' => simp [hv] at hv'

/-! ### All functions -/

/-- What the lifter keeps across functions: the lifted functions are recovered, with the
blocks that were emitted, and the patch is pending until `_IO_file_xsputn` is lifted. -/
structure TraceLifter.Sound (m : TraceManager) (t : TraceLifter) : Prop where
  entry : ∀ g s, t.traces g = some s → m.isFunctionEntry g = true
  recovered : ∀ g s, t.traces g = some s → Recovered m g s
  emits : ∀ g s, t.traces g = some s → Emits m g false s
  liftable : ∀ g s, t.traces g = some s → Liftable m g false
  patch : t.traces m.io_file_xsputn_vma = none → t.tmp_patch_fn_check = false

variable {t t' : TraceLifter}

/-- Before the first function nothing is lifted. -/
theorem TraceLifter.sound_start : TraceLifter.start.Sound m where
  entry g s h := by cases h
  recovered g s h := by cases h
  emits g s h := by cases h
  liftable g s h := by cases h
  patch _ := rfl

/-- Only the functions and the patch matter. -/
theorem TraceLifter.Sound.of_traces (h : t.Sound m) (ht : t'.traces = t.traces)
    (hp : t'.tmp_patch_fn_check = t.tmp_patch_fn_check) : t'.Sound m where
  entry g s hg := h.entry g s (ht ▸ hg)
  recovered g s hg := h.recovered g s (ht ▸ hg)
  emits g s hg := h.emits g s (ht ▸ hg)
  liftable g s hg := h.liftable g s (ht ▸ hg)
  patch hx := hp.trans (h.patch (ht ▸ hx))

/-- A function that is lifted has its blocks, and was liftable. -/
theorem TraceLifter.Sound.traced {g : Addr} {rest : List Addr} (h : t.Sound m)
    (hg : t.traces g = none) (hentry : m.isFunctionEntry g = true)
    (hs : Machine.Halts (liftStep m g) (.init g t.tmp_patch_fn_check) (.ok s)) :
    (t.traced rest g s).Sound m := by
  -- for `_IO_file_xsputn` the flag is still clear, elsewhere it does not matter
  have hemits : Emits m g false s := by
    by_cases hx : g = m.io_file_xsputn_vma
    · rw [← h.patch (hx ▸ hg)]
      exact emits_of_halts hs
    · intro a ha
      obtain ⟨e, he, hblock⟩ := emits_of_halts hs a ha
      refine ⟨e, ?_, hblock⟩
      rw [← he]
      exact liftInst_congr a ((patches_of_ne hx).trans (patches_of_ne hx).symm)
  have hliftable : Liftable m g false := by
    by_cases hx : g = m.io_file_xsputn_vma
    · rw [← h.patch (hx ▸ hg)]
      exact (recovered_of_halts hs s rfl).2
    · exact (recovered_of_halts hs s rfl).2.of_ne hx
  have htraced : ∀ c s', (t.traced rest g s).traces c = some s' →
      c = g ∧ s' = s ∨ t.traces c = some s' := by
    intro c s' hc
    by_cases hcg : c = g
    · exact .inl ⟨hcg, by simpa [TraceLifter.traced, hcg] using hc.symm⟩
    · exact .inr (by simpa [TraceLifter.traced, hcg] using hc)
  refine ⟨fun c s' hc => ?_, fun c s' hc => ?_, fun c s' hc => ?_, fun c s' hc => ?_,
    fun hx => ?_⟩
  · rcases htraced c s' hc with ⟨rfl, -⟩ | hc
    · exact hentry
    · exact h.entry c s' hc
  · rcases htraced c s' hc with ⟨rfl, rfl⟩ | hc
    · exact (recovered_of_halts hs s' rfl).1
    · exact h.recovered c s' hc
  · rcases htraced c s' hc with ⟨rfl, rfl⟩ | hc
    · exact hemits
    · exact h.emits c s' hc
  · rcases htraced c s' hc with ⟨rfl, -⟩ | hc
    · exact hliftable
    · exact h.liftable c s' hc
  · obtain ⟨hx', hflag⟩ := patch_traced hx hs
    exact hflag.trans (h.patch hx')

/-- The loop over `trace_work_list` keeps this, by induction on its turns. -/
theorem TraceLifter.sound_liftTraces {n : Nat} (hentry : ∀ g ∈ t.trace_work_list,
      m.isFunctionEntry g = true) (hi : t.Sound m) (h : liftTraces m n t = some (.ok t')) :
    t'.Sound m := by
  induction n generalizing t with
  | zero => cases h
  | succ n ih =>
      rcases hw : t.trace_work_list with - | ⟨g, rest⟩
      · rw [liftTraces_nil hw] at h
        cases h
        exact hi
      · have hrest : ∀ c ∈ rest, m.isFunctionEntry c = true := fun c hc =>
          hentry c (by rw [hw]; exact List.mem_cons_of_mem _ hc)
        have hg : m.isFunctionEntry g = true := hentry g (by rw [hw]; exact List.mem_cons_self)
        rw [liftTraces_cons hw] at h
        -- a function lifted before is skipped
        rcases htr : t.traces g with - | s
        · rw [htr, if_neg (by simp), if_pos hg] at h
          split at h
          · cases h
          · cases h
          · rename_i s hrun
            have hs : Machine.Halts (liftStep m g) (.init g t.tmp_patch_fn_check) (.ok s) :=
              ⟨n, hrun⟩
            refine ih (fun c hc => ?_) (hi.traced htr hg hs) h
            rcases mem_foldr_setInsert.mp hc with hc | hc
            · obtain ⟨a, -, hca⟩ := ((recovered_of_halts hs s rfl).1.callees c).mp hc
              exact isFunctionEntry_of_callee hca
            · exact hrest c hc
        · rw [htr, if_pos Option.isSome_some] at h
          have hi' : ({ t with trace_work_list := rest } : TraceLifter).Sound m :=
            hi.of_traces rfl rfl
          exact ih hrest hi' h

/-- The loop `for (auto &[addr, dasm_func] : manager.disasm_funcs)` of `main`. -/
def liftAll (m : TraceManager) (fuel : Nat) :
    List Addr → TraceLifter → Option (Except Crash TraceLifter)
  | [], t => some (.ok t)
  | vma :: vmas, t =>
      match t.lift m fuel vma with
      | some (.ok t') => liftAll m fuel vmas t'
      | r => r

/-- A call of `Lift` keeps the lifted functions, and lifts its own. -/
theorem traces_of_lift {fuel : Nat} (hf : m.isFunctionEntry f = true)
    (h : t.lift m fuel f = some (.ok t')) :
    (∀ g s, t.traces g = some s → t'.traces g = some s) ∧ t'.traces f ≠ none := by
  obtain ⟨hi, hw⟩ := tracesInv_of_liftTraces (tracesInv_init hf) h
  exact ⟨hi.keep, hi.traced_of_reached hw .root⟩

/-- What a call of `Lift` adds to the tables is sound. -/
theorem TraceLifter.Sound.lift {fuel : Nat} (hi : t.Sound m) (hf : m.isFunctionEntry f = true)
    (h : t.lift m fuel f = some (.ok t')) : t'.Sound m := by
  have hi₀ : ({ t with trace_work_list := [f] } : TraceLifter).Sound m :=
    hi.of_traces rfl rfl
  exact TraceLifter.sound_liftTraces
    (fun g hg => by rw [List.mem_singleton.mp hg]; exact hf) hi₀ h

/-- When the loop is through, every function is lifted. -/
theorem liftAll_spec {fuel : Nat} {vmas : List Addr}
    (hentry : ∀ f ∈ vmas, m.isFunctionEntry f = true) (hi : t.Sound m)
    (h : liftAll m fuel vmas t = some (.ok t')) :
    t'.Sound m ∧ (∀ g s, t.traces g = some s → t'.traces g = some s) ∧
      ∀ f ∈ vmas, t'.traces f ≠ none := by
  induction vmas generalizing t with
  | nil =>
      cases h
      exact ⟨hi, fun _ _ h => h, by simp⟩
  | cons f vmas ih =>
      have hf := hentry f List.mem_cons_self
      unfold liftAll at h
      split at h
      · rename_i t₁ ht₁
        obtain ⟨hkeep, hdone⟩ := traces_of_lift hf ht₁
        have hi₁ : t₁.Sound m := hi.lift hf ht₁
        obtain ⟨hi', hkeep', hall⟩ := ih (fun g hg => hentry g (List.mem_cons_of_mem _ hg)) hi₁ h
        refine ⟨hi', fun g s hg => hkeep' g s (hkeep g s hg),
          List.forall_mem_cons.mpr ⟨?_, hall⟩⟩
        obtain ⟨s, hs⟩ := Option.ne_none_iff_exists'.mp hdone
        rw [hkeep' f s hs]
        exact Option.some_ne_none s
      · rename_i hne
        exact absurd h (hne t')

/-! The loop returns. -/

/-- More fuel does not change the result. -/
theorem liftTraces_mono {n k : Nat} {r : Except Crash TraceLifter}
    (h : liftTraces m n t = some r) : liftTraces m (n + k) t = some r := by
  induction n generalizing t with
  | zero => cases h
  | succ n ih =>
      rw [show n + 1 + k = n + k + 1 by omega]
      rcases hw : t.trace_work_list with - | ⟨g, rest⟩
      · rw [liftTraces_nil hw] at h ⊢
        exact h
      · rw [liftTraces_cons hw] at h ⊢
        split at h
        · rename_i hg
          rw [if_pos hg]
          exact ih h
        · rename_i hg
          rw [if_neg hg]
          split at h
          · rename_i hentry
            rw [if_pos hentry]
            split at h
            · cases h
            · rename_i hrun
              rw [Machine.run_mono hrun]
              exact h
            · rename_i hrun
              rw [Machine.run_mono hrun]
              exact ih h
          · rename_i hentry
            rw [if_neg hentry]
            exact h

/-- More fuel changes nothing. -/
theorem liftAll_mono {n k : Nat} {vmas : List Addr}
    (h : liftAll m n vmas t = some (.ok t')) : liftAll m (n + k) vmas t = some (.ok t') := by
  induction vmas generalizing t with
  | nil => exact h
  | cons f vmas ih =>
      unfold liftAll at h ⊢
      split at h
      · rename_i t₁ ht₁
        have ht₁' : t.lift m (n + k) f = some (.ok t₁) := liftTraces_mono ht₁
        rw [ht₁']
        exact ih h
      · rename_i hne
        exact absurd h (hne t')

/-- What is still to be lifted is liftable with the flag as it stands. -/
theorem TraceLifter.Sound.liftable_of_none (h : t.Sound m) {g : Addr} (hg : t.traces g = none)
    (hl : Liftable m g false) : Liftable m g t.tmp_patch_fn_check := by
  by_cases hx : g = m.io_file_xsputn_vma
  · rw [h.patch (hx ▸ hg)]
    exact hl
  · exact hl.of_ne hx

/-- A call gets to entries of functions only. -/
theorem isFunctionEntry_of_reached {g : Addr} (hf : m.isFunctionEntry f = true)
    (h : Reached m t f g) : m.isFunctionEntry g = true := by
  cases h with
  | root => exact hf
  | call _ _ _ hc => exact isFunctionEntry_of_callee hc

/-- If every function is liftable, the loop returns. -/
theorem liftAll_total {vmas : List Addr} (hentry : ∀ f ∈ vmas, m.isFunctionEntry f = true)
    (hl : ∀ f, m.isFunctionEntry f = true → Liftable m f false) (hi : t.Sound m) :
    ∃ fuel t', liftAll m fuel vmas t = some (.ok t') := by
  induction vmas generalizing t with
  | nil => exact ⟨0, t, rfl⟩
  | cons f vmas ih =>
      have hf := hentry f List.mem_cons_self
      obtain ⟨n, t₁, ht₁⟩ := liftTraces_total (fun g hg hnew => hi.liftable_of_none hnew
        (hl g (isFunctionEntry_of_reached hf hg))) (tracesInv_init hf)
      have hi₁ : t₁.Sound m := hi.lift hf ht₁
      obtain ⟨k, t', ht'⟩ := ih (fun g hg => hentry g (List.mem_cons_of_mem _ hg)) hi₁
      refine ⟨n + k, t', ?_⟩
      have hlift : t.lift m (n + k) f = some (.ok t₁) := liftTraces_mono ht₁
      rw [liftAll, hlift, Nat.add_comm]
      exact liftAll_mono ht'

/-! ### The lifted program -/

/-- The lifted functions, with the tables of the indirect branches. -/
structure LiftedImage (m : TraceManager) where
  lifter : TraceLifter
  program : LiftedProgram
  sound : lifter.Sound m
  all : ∀ f, m.isFunctionEntry f = true → lifter.traces f ≠ none
  functions : ∀ fn, fn ∈ program.functions ↔
    ∃ f s, lifter.traces f = some s ∧ s.function f = fn

/-- The functions of the tables, for the functions lifted in the order `vmas`. -/
def TraceLifter.functions (t : TraceLifter) (vmas : List Addr) : List LiftedFunction :=
  vmas.filterMap fun f => (t.traces f).map fun s => s.function f

/-- The functions of the program, by their entries. -/
theorem TraceLifter.functions_trace_addr {vmas : List Addr}
    (h : ∀ f ∈ vmas, t.traces f ≠ none) :
    (t.functions vmas).map LiftedFunction.trace_addr = vmas := by
  induction vmas with
  | nil => rfl
  | cons f vmas ih =>
      obtain ⟨s, hs⟩ := Option.ne_none_iff_exists'.mp (h f List.mem_cons_self)
      have ih := ih fun g hg => h g (List.mem_cons_of_mem _ hg)
      have hcons : t.functions (f :: vmas) = s.function f :: t.functions vmas := by
        simp only [functions, List.filterMap_cons, hs, Option.map_some]
      rw [hcons, List.map_cons, ih]
      rfl

/-- The functions of the program are those that were lifted. -/
theorem TraceLifter.mem_functions {vmas : List Addr} {fn : LiftedFunction}
    (h : ∀ f s, t.traces f = some s → f ∈ vmas) :
    fn ∈ t.functions vmas ↔ ∃ f s, t.traces f = some s ∧ s.function f = fn := by
  simp only [functions, List.mem_filterMap, Option.map_eq_some_iff]
  exact ⟨fun ⟨f, _, s, hs, he⟩ => ⟨f, s, hs, he⟩, fun ⟨f, s, hs, he⟩ => ⟨f, h f s hs, s, hs, he⟩⟩

/-- What `main` leaves: `vmas` are the disassembled functions, and `table` is their order
in the function table. -/
def LiftedImage.ofLiftAll {fuel : Nat} {vmas table : List Addr} (hnodup : vmas.Nodup)
    (htable : table.Perm vmas) (hentry : ∀ f, f ∈ vmas ↔ m.isFunctionEntry f = true)
    (h : liftAll m fuel vmas .start = some (.ok t)) : LiftedImage m :=
  have hspec := liftAll_spec (fun f hf => (hentry f).mp hf) TraceLifter.sound_start h
  have haddr : (t.functions vmas).map LiftedFunction.trace_addr = vmas :=
    TraceLifter.functions_trace_addr hspec.2.2
  { lifter := t
    program :=
      { functions := t.functions vmas
        addr_fn_map := table
        nodup := haddr.symm ▸ hnodup
        perm := haddr.symm ▸ htable }
    sound := hspec.1
    all := fun f hf => hspec.2.2 f ((hentry f).mpr hf)
    functions := fun _ => TraceLifter.mem_functions fun f s hs =>
      (hentry f).mpr (hspec.1.entry f s hs) }

/-- A program of liftable functions has an image. -/
theorem exists_liftedImage {vmas table : List Addr} (hnodup : vmas.Nodup)
    (htable : table.Perm vmas) (hentry : ∀ f, f ∈ vmas ↔ m.isFunctionEntry f = true)
    (hl : ∀ f, m.isFunctionEntry f = true → Liftable m f false) :
    ∃ im : LiftedImage m, im.program.addr_fn_map = table := by
  obtain ⟨fuel, t, ht⟩ := liftAll_total (fun f hf => (hentry f).mp hf) hl
    (TraceLifter.sound_start (m := m))
  exact ⟨.ofLiftAll hnodup htable hentry ht, rfl⟩

/-- **The whole program is lifted exactly when every function is liftable**, and then every
function is recovered, with the blocks that the loop body emits for its members. -/
theorem liftAll_exact_iff {vmas : List Addr}
    (hentry : ∀ f, f ∈ vmas ↔ m.isFunctionEntry f = true) :
    (∃ fuel t, liftAll m fuel vmas .start = some (.ok t) ∧
      ∀ f, m.isFunctionEntry f = true → ∃ s, t.traces f = some s ∧ Recovered m f s ∧
        ∀ a, Member m f a → ∃ e, liftInst m f (a != f) a = .ok e ∧
          s.blocks a = some e.block) ↔
    ∀ f, m.isFunctionEntry f = true → Liftable m f false := by
  constructor
  · rintro ⟨fuel, t, ht, -⟩ f hf
    obtain ⟨hi, -, hall⟩ := liftAll_spec (fun f hf => (hentry f).mp hf)
      TraceLifter.sound_start ht
    obtain ⟨s, hs⟩ := Option.ne_none_iff_exists'.mp (hall f ((hentry f).mpr hf))
    exact hi.liftable f s hs
  · intro hl
    obtain ⟨fuel, t, ht⟩ := liftAll_total (fun f hf => (hentry f).mp hf) hl
      TraceLifter.sound_start
    obtain ⟨hi, -, hall⟩ := liftAll_spec (fun f hf => (hentry f).mp hf)
      TraceLifter.sound_start ht
    refine ⟨fuel, t, ht, fun f hf => ?_⟩
    obtain ⟨s, hs⟩ := Option.ne_none_iff_exists'.mp (hall f ((hentry f).mpr hf))
    have hrec := hi.recovered f s hs
    refine ⟨s, hs, hrec, fun a ha => ?_⟩
    obtain ⟨e, he, hblock⟩ := hi.emits f s hs a ((hrec.lifted a).mpr ha)
    exact ⟨e, by rwa [flagAt, Bool.false_or] at he, hblock⟩

/-- The whole of a program with calls and an indirect branch is lifted. -/
theorem liftAll_exact_iff_dispatcher : ∃ fuel t,
    liftAll (dispatcher branchArch) fuel [0x1000#64, 0x100c#64] .start = some (.ok t) ∧
      ∀ f, (dispatcher branchArch).isFunctionEntry f = true →
        ∃ s, t.traces f = some s ∧ Recovered (dispatcher branchArch) f s ∧
          ∀ a, Member (dispatcher branchArch) f a →
            ∃ e, liftInst (dispatcher branchArch) f (a != f) a = .ok e ∧
              s.blocks a = some e.block :=
  (liftAll_exact_iff fun _ => isFunctionEntry_dispatcher).mpr fun _ hf =>
    liftable_dispatcher branchArch_dispatcher (isFunctionEntry_dispatcher.mpr hf)

end Elfconv
