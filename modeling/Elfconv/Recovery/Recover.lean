/-
Elfconv/Recovery/Recover.lean

Lifting one function terminates with exactly the control flow graph of `Member`.

`liftStep_cases` lists what a turn of the lifter can do.  `LiftInv` is the invariant; each
kind of turn keeps it, by one lemma.  Partial correctness reads the graph off the final
state; total correctness needs that no member brings the lifter down, that the loop over
the slots does not run off the end of the address space, and that the results can be stored.
-/
import Elfconv.Recovery.Closure
import Mathlib.Data.BitVec
import Mathlib.Data.FinEnum
import Mathlib.Order.RelClasses

namespace Elfconv

open Lifting

/-! ### Work lists and blocks -/

/-- An insertion adds one element. -/
theorem mem_setInsert {a b : Addr} {l : List Addr} : b ∈ setInsert a l ↔ b = a ∨ b ∈ l := by
  induction l with
  | nil => simp [setInsert]
  | cons c rest ih =>
      unfold setInsert
      split
      · simp
      · split
        · rename_i h
          subst h
          simp
        · simp only [List.mem_cons, ih]
          tauto

/-- An insertion makes the list longer by one at most. -/
theorem length_setInsert_le {a : Addr} {l : List Addr} :
    (setInsert a l).length ≤ l.length + 1 := by
  induction l with
  | nil => simp [setInsert]
  | cons c rest ih =>
      unfold setInsert
      split
      · simp
      · split
        · simp
        · simpa using ih

/-- `s'` is `s` after `addTarget` for some addresses. -/
structure Grown (targets : List Addr) (s s' : Lifting) : Prop where
  work : ∀ b, b ∈ s'.inst_work_list ↔ b ∈ targets ∨ b ∈ s.inst_work_list
  length : s'.inst_work_list.length ≤ s.inst_work_list.length + targets.length
  keep : ∀ b x, s.blocks b = some x → s'.blocks b = some x
  content : ∀ b, (s'.blocks b).getD [] = (s.blocks b).getD []
  created : ∀ b, (s'.blocks b).isSome = true → b ∈ targets ∨ (s.blocks b).isSome = true
  nodes : s'.bb_reg_info_node_map = s.bb_reg_info_node_map
  indirect : s'.indirectbr_block = s.indirectbr_block
  lift_all : s'.lift_all_insn = s.lift_all_insn
  insn_vma : s'.insn_vma = s.insn_vma
  callees : s'.callees = s.callees
  patch : s'.tmp_patch_fn_check = s.tmp_patch_fn_check
  written : s'.sema_call_written_reg_map = s.sema_call_written_reg_map

/-- One target is added. -/
theorem grown_addTarget (a : Addr) (s : Lifting) : Grown [a] s (s.addTarget a) := by
  rcases h : s.blocks a with - | x
  · have e : s.addTarget a = { s with
        inst_work_list := setInsert a s.inst_work_list
        blocks := fun b => if b = a then some [] else s.blocks b } := by
      simp [addTarget, getOrCreateBlock, h]
    rw [e]
    refine ⟨fun b => by simp [mem_setInsert], length_setInsert_le, fun b x hb => ?_,
      fun b => ?_, fun b hb => ?_, rfl, rfl, rfl, rfl, rfl, rfl, rfl⟩
    · have hne : b ≠ a := by
        rintro rfl
        simp [h] at hb
      simp [hne, hb]
    · by_cases hb : b = a
      · simp [hb, h]
      · simp [hb]
    · by_cases hba : b = a
      · exact .inl (by simp [hba])
      · exact .inr (by simpa [hba] using hb)
  · have e : s.addTarget a = { s with inst_work_list := setInsert a s.inst_work_list } := by
      simp [addTarget, getOrCreateBlock, h]
    rw [e]
    exact ⟨fun b => by simp [mem_setInsert], length_setInsert_le, fun _ _ hb => hb,
      fun _ => rfl, fun _ hb => .inr hb, rfl, rfl, rfl, rfl, rfl, rfl, rfl⟩

/-- The targets of an instruction are added in turn, by induction on them. -/
theorem grown_foldl (targets : List Addr) : ∀ s : Lifting,
    Grown targets s (targets.foldl addTarget s) := by
  -- what each target changes adds up; all other fields are as before
  induction targets with
  | nil =>
      intro s
      exact ⟨by simp, by simp, fun _ _ h => h, fun _ => rfl, fun _ h => .inr h, rfl, rfl, rfl, rfl,
        rfl, rfl, rfl⟩
  | cons a rest ih =>
      intro s
      have h₁ := grown_addTarget a s
      have h₂ := ih (s.addTarget a)
      refine ⟨fun b => ?_, ?_, fun b x hb => h₂.keep b x (h₁.keep b x hb),
        fun b => (h₂.content b).trans (h₁.content b), fun b hb => ?_,
        h₂.nodes.trans h₁.nodes, h₂.indirect.trans h₁.indirect, h₂.lift_all.trans h₁.lift_all,
        h₂.insn_vma.trans h₁.insn_vma, h₂.callees.trans h₁.callees, h₂.patch.trans h₁.patch,
        h₂.written.trans h₁.written⟩
      · rw [List.foldl_cons, h₂.work, h₁.work]
        simp only [List.mem_cons, List.not_mem_nil, or_false]
        tauto
      · have hl₁ := h₁.length
        have hl₂ := h₂.length
        simp only [List.length_cons, List.length_nil] at hl₁ ⊢
        rw [List.foldl_cons]
        omega
      · rcases h₂.created b hb with hr | hr
        · exact .inl (List.mem_cons_of_mem _ hr)
        · exact (h₁.created b hr).imp_left fun h => by simp_all

/-! ### One turn of the lifter -/

section Step

variable {m : TraceManager} {f : Addr} {s s' : Lifting}

/-- The state after `e` went into the block of `a`, popped from `a :: rest`. -/
def Lifting.lifted (s : Lifting) (rest : List Addr) (a : Addr) (e : Emitted) : Lifting :=
  e.targets.foldl addTarget
    (({ s with
        inst_work_list := rest
        bb_reg_info_node_map := a :: s.bb_reg_info_node_map }).emit a e)

/-- What lifting an address changes besides the contribution to its block. -/
theorem grown_lifted (s : Lifting) (rest : List Addr) (a : Addr) (e : Emitted) :
    Grown e.targets
      (({ s with
          inst_work_list := rest
          bb_reg_info_node_map := a :: s.bb_reg_info_node_map }).emit a e)
      (s.lifted rest a e) :=
  grown_foldl e.targets _

/-- A turn that goes on. -/
inductive Turn (m : TraceManager) (f : Addr) (s : Lifting) : Lifting → Prop
  | slot (v : Addr) : s.insn_vma = some v → v < m.getFuncVMA_E f →
      Turn m f s { s with
        inst_work_list := if (s.blocks v).isSome then s.inst_work_list
          else setInsert v s.inst_work_list
        insn_vma := some (v + 4) }
  | slotsDone (v : Addr) : s.insn_vma = some v → ¬ v < m.getFuncVMA_E f →
      Turn m f s { s with lift_all_insn := true, insn_vma := none }
  | skip (a : Addr) (rest : List Addr) : s.insn_vma = none → s.inst_work_list = a :: rest →
      (s.blocks a).getD [] ≠ [] → Turn m f s { s with inst_work_list := rest }
  | lift (a : Addr) (rest : List Addr) (e : Emitted) : s.insn_vma = none →
      s.inst_work_list = a :: rest → a ∉ s.bb_reg_info_node_map →
      liftInst m f s.tmp_patch_fn_check a = .ok e → Turn m f s (s.lifted rest a e)
  | slots : s.insn_vma = none → s.inst_work_list = [] → s.lift_all_insn = false →
      s.indirectbr_block = true → Turn m f s { s with insn_vma := some f }

/-- A turn that stops. -/
inductive Stop (m : TraceManager) (f : Addr) (s : Lifting) : Except Crash Lifting → Prop
  | done : s.insn_vma = none → s.inst_work_list = [] →
      (s.indirectbr_block = true → s.lift_all_insn = true ∧ s.storesAll = true) →
      Stop m f s (.ok s.addMissingTerminators)
  | store : s.insn_vma = none → s.inst_work_list = [] → s.lift_all_insn = true →
      s.indirectbr_block = true → s.storesAll = false → Stop m f s (.error .store)
  | mapped (a : Addr) (rest : List Addr) : s.insn_vma = none → s.inst_work_list = a :: rest →
      a ∈ s.bb_reg_info_node_map → (s.blocks a).getD [] = [] →
      Stop m f s (.error .bb_reg_info_node_map)
  | crash (a : Addr) (rest : List Addr) (c : Crash) : s.insn_vma = none →
      s.inst_work_list = a :: rest → a ∉ s.bb_reg_info_node_map →
      liftInst m f s.tmp_patch_fn_check a = .error c → Stop m f s (.error c)

/-- A block that is there is left as it is. -/
theorem getOrCreateBlock_of_some {s : Lifting} {a : Addr} {x : List Piece}
    (h : s.blocks a = some x) : s.getOrCreateBlock a = s := by
  simp [getOrCreateBlock, h]

/-- A block that is not there is created empty. -/
theorem getOrCreateBlock_of_none {s : Lifting} {a : Addr} (h : s.blocks a = none) :
    s.getOrCreateBlock a = { s with blocks := fun b => if b = a then some [] else s.blocks b } := by
  simp [getOrCreateBlock, h]

/-- Creating the block first makes no difference to what goes into it. -/
theorem emit_getOrCreateBlock (s : Lifting) (a : Addr) (e : Emitted) (nodes : List Addr) :
    ({ s.getOrCreateBlock a with bb_reg_info_node_map := nodes }).emit a e =
      ({ s with bb_reg_info_node_map := nodes }).emit a e := by
  rcases h : s.blocks a with - | x
  · rw [getOrCreateBlock_of_none h]
    simp only [emit, Lifting.mk.injEq, true_and, and_true]
    funext b
    by_cases hb : b = a
    · simp [hb]
    · simp [hb]
  · rw [getOrCreateBlock_of_some h]

/-- The turn on a popped address whose block is still empty. -/
theorem liftPopped_of_empty {a : Addr} (h : (s.blocks a).getD [] = []) :
    s.liftPopped m f a =
      if a ∈ s.bb_reg_info_node_map then .inr (.error .bb_reg_info_node_map)
      else
        match liftInst m f s.tmp_patch_fn_check a with
        | .error c => .inr (.error c)
        | .ok e => .inl (e.targets.foldl addTarget
            (({ s with bb_reg_info_node_map := a :: s.bb_reg_info_node_map }).emit a e)) := by
  have hempty : ((s.getOrCreateBlock a).blocks a).getD [] = [] := by
    rcases hs : s.blocks a with - | x
    · simp [getOrCreateBlock_of_none hs]
    · rw [getOrCreateBlock_of_some hs, h]
  have hnodes : (s.getOrCreateBlock a).bb_reg_info_node_map = s.bb_reg_info_node_map ∧
      (s.getOrCreateBlock a).tmp_patch_fn_check = s.tmp_patch_fn_check := by
    rcases hs : s.blocks a with - | x
    · simp [getOrCreateBlock_of_none hs]
    · simp [getOrCreateBlock_of_some hs]
  simp only [liftPopped, hempty, ne_eq, not_true_eq_false, if_false]
  simp only [hnodes.1, emit_getOrCreateBlock]
  have hflag := hnodes.2
  generalize (s.getOrCreateBlock a).tmp_patch_fn_check = flag at hflag ⊢
  subst hflag
  rfl

/-- A block with content is passed over. -/
theorem liftPopped_of_content {a : Addr} (h : (s.blocks a).getD [] ≠ []) :
    s.liftPopped m f a = .inl s := by
  rcases hs : s.blocks a with - | x
  · simp [hs] at h
  · have hcreate := getOrCreateBlock_of_some hs
    simp only [liftPopped, hcreate]
    rw [if_pos h]

/-- One slot of the loop over all slots. -/
theorem liftStep_slot {v : Addr} (hv : s.insn_vma = some v) :
    liftStep m f s =
      if v < m.getFuncVMA_E f then
        .inl { s with
          inst_work_list := if (s.blocks v).isSome then s.inst_work_list
            else setInsert v s.inst_work_list
          insn_vma := some (v + 4) }
      else
        .inl { s with lift_all_insn := true, insn_vma := none } := by
  simp only [liftStep, hv]

/-- One address is taken from the work list. -/
theorem liftStep_pop {a : Addr} {rest : List Addr} (hv : s.insn_vma = none)
    (hw : s.inst_work_list = a :: rest) :
    liftStep m f s = ({ s with inst_work_list := rest }).liftPopped m f a := by
  obtain ⟨work, blocks, nodes, indirect, liftAll, vma, callees, patch, written⟩ := s
  cases hv
  cases hw
  rfl

/-- The work list is empty: the loop over the slots begins, or the lifting ends. -/
theorem liftStep_empty (hv : s.insn_vma = none) (hw : s.inst_work_list = []) :
    liftStep m f s =
      if !s.lift_all_insn && s.indirectbr_block then .inl { s with insn_vma := some f }
      else if s.indirectbr_block && !s.storesAll then .inr (.error .store)
      else .inr (.ok s.addMissingTerminators) := by
  obtain ⟨work, blocks, nodes, indirect, liftAll, vma, callees, patch, written⟩ := s
  cases hv
  cases hw
  rfl

/-- Everything a turn can do. -/
theorem liftStep_cases (s' : Lifting) (r : Except Crash Lifting) :
    (liftStep m f s = .inl s' → Turn m f s s') ∧ (liftStep m f s = .inr r → Stop m f s r) := by
  rcases hv : s.insn_vma with - | v
  · rcases hw : s.inst_work_list with - | ⟨a, rest⟩
    -- the work list is empty: the slots, the storing of the results, or the end
    · rw [liftStep_empty hv hw]
      split
      · rename_i hc
        simp only [Bool.and_eq_true, Bool.not_eq_true'] at hc
        refine ⟨?_, by simp⟩
        rintro ⟨⟩
        exact .slots hv hw hc.1 hc.2
      · rename_i hc
        have hall : s.indirectbr_block = true → s.lift_all_insn = true := fun hi => by
          simpa [hi] using hc
        refine ⟨by split <;> simp, ?_⟩
        split
        · rename_i hs
          simp only [Bool.and_eq_true, Bool.not_eq_true'] at hs
          rintro ⟨⟩
          exact .store hv hw (hall hs.1) hs.1 hs.2
        · rename_i hs
          rintro ⟨⟩
          exact .done hv hw fun hi => ⟨hall hi, by simpa [hi] using hs⟩
    · rw [liftStep_pop hv hw]
      by_cases hc : (s.blocks a).getD [] = []
      · rw [liftPopped_of_empty (s := { s with inst_work_list := rest }) hc]
        by_cases hn : a ∈ s.bb_reg_info_node_map
        · rw [if_pos hn]
          refine ⟨by simp, ?_⟩
          rintro ⟨⟩
          exact .mapped a rest hv hw hn hc
        · rw [if_neg hn]
          rcases hl : liftInst m f s.tmp_patch_fn_check a with c | e
          · refine ⟨by simp, ?_⟩
            rintro ⟨⟩
            exact .crash a rest c hv hw hn hl
          · refine ⟨?_, by simp⟩
            rintro ⟨⟩
            exact .lift a rest e hv hw hn hl
      · rw [liftPopped_of_content (s := { s with inst_work_list := rest }) hc]
        refine ⟨?_, by simp⟩
        rintro ⟨⟩
        exact .skip a rest hv hw hc
  · rw [liftStep_slot hv]
    split
    · rename_i hlt
      refine ⟨?_, by simp⟩
      rintro ⟨⟩
      exact .slot v hv hlt
    · rename_i hlt
      refine ⟨?_, by simp⟩
      rintro ⟨⟩
      exact .slotsDone v hv hlt

/-- Every step is a turn. -/
theorem turn_of_step (h : liftStep m f s = .inl s') : Turn m f s s' :=
  (liftStep_cases s' (.error .lifter)).1 h

/-- Every end is one of those listed. -/
theorem stop_of_step {r : Except Crash Lifting} (h : liftStep m f s = .inr r) :
    Stop m f s r :=
  (liftStep_cases s r).2 h

end Step

/-! ### The invariant -/

/-- The slots run off the end of the address space: no address in step with `f` reaches
`vma_e`. -/
def Wraps (m : TraceManager) (f : Addr) : Prop :=
  2 ^ 64 - 4 + f.toNat % 4 < (m.getFuncVMA_E f).toNat

/-- An address is lifted or waits to be. -/
def Lifting.Seen (s : Lifting) (a : Addr) : Prop :=
  a ∈ s.bb_reg_info_node_map ∨ a ∈ s.inst_work_list

/-- Where the loop over the slots stands: the slots below the cursor are seen. -/
structure Cursor (m : TraceManager) (f : Addr) (s : Lifting) (v : Addr) : Prop where
  indirect : s.indirectbr_block = true
  lift_all : s.lift_all_insn = false
  wraps : ¬ Wraps m f
  passed : ∃ j, v.toNat = f.toNat + 4 * j ∧ ∀ i < j, s.Seen (f + BitVec.ofNat 64 (4 * i))

/-- The invariant of the lifter on the function at `f`, entered with `flag`. -/
structure LiftInv (m : TraceManager) (f : Addr) (flag : Bool) (s : Lifting) : Prop where
  start : f ∉ s.bb_reg_info_node_map → s.bb_reg_info_node_map = [] ∧
    s.inst_work_list = [f] ∧ s.insn_vma = none ∧ s.tmp_patch_fn_check = flag
  patch : f ∈ s.bb_reg_info_node_map → patches m f s.tmp_patch_fn_check = true →
    s.inst_work_list = [] ∧ s.insn_vma = none ∧ s.indirectbr_block = false
  member : ∀ a, s.Seen a → Member m f a
  nodup : s.bb_reg_info_node_map.Nodup
  block : ∀ a ∈ s.bb_reg_info_node_map, ∃ e, Contributes m f a e ∧ s.blocks a = some e.block
  empty : ∀ a, a ∉ s.bb_reg_info_node_map → (s.blocks a).getD [] = []
  created : ∀ a, (s.blocks a).isSome = true → s.Seen a
  harmless : ∀ a ∈ s.bb_reg_info_node_map, Harmless m f (patches m f flag && a == f) a
  closed : ∀ a ∈ s.bb_reg_info_node_map, ∀ b ∈ successors m f a, s.Seen b
  indirect : s.indirectbr_block = true ↔ ∃ a ∈ s.bb_reg_info_node_map, IndirectJump m f a
  callees : ∀ c, c ∈ s.callees ↔ ∃ a ∈ s.bb_reg_info_node_map, c ∈ Elfconv.callees m f a
  stored : s.storesAll = true ↔ ∀ a ∈ s.bb_reg_info_node_map, Storable m f a
  cursor : ∀ v, s.insn_vma = some v → Cursor m f s v
  slots : s.lift_all_insn = true → ¬ Wraps m f ∧ ∀ b, Slot m f b → s.Seen b

section Invariant

variable {m : TraceManager} {f : Addr} {flag : Bool} {s s' : Lifting}

/-- The invariant holds at the start. -/
theorem liftInv_init : LiftInv m f flag (.init f flag) where
  start _ := ⟨rfl, rfl, rfl, rfl⟩
  patch h := by simp [Lifting.init] at h
  member a h := by
    have hf : a = f := by simpa [Seen, Lifting.init] using h
    exact hf ▸ .entry
  nodup := List.nodup_nil
  block a h := by simp [Lifting.init] at h
  empty a _ := by
    by_cases ha : a = f
    · simp [Lifting.init, ha]
    · simp [Lifting.init, ha]
  created a h := by
    have hf : a = f := by simpa [Lifting.init] using h
    exact .inr (by simp [Lifting.init, hf])
  harmless a h := by simp [Lifting.init] at h
  closed a h := by simp [Lifting.init] at h
  indirect := by simp [Lifting.init]
  callees := by simp [Lifting.init]
  stored := by simp [Lifting.init, storesAll]
  cursor v h := by simp [Lifting.init] at h
  slots h := by simp [Lifting.init] at h

/-- A turn that changes neither the lifted addresses nor their blocks keeps most of the
invariant. -/
theorem LiftInv.of_seen (hi : LiftInv m f flag s)
    (hnodes : s'.bb_reg_info_node_map = s.bb_reg_info_node_map)
    (hblocks : s'.blocks = s.blocks) (hindirect : s'.indirectbr_block = s.indirectbr_block)
    (hcallees : s'.callees = s.callees)
    (hwritten : s'.sema_call_written_reg_map = s.sema_call_written_reg_map)
    (hf : f ∈ s.bb_reg_info_node_map)
    (hpatch : patches m f s'.tmp_patch_fn_check = true → s'.inst_work_list = [] ∧
      s'.insn_vma = none ∧ s'.indirectbr_block = false)
    (hseen : ∀ a, s.Seen a → s'.Seen a) (hmember : ∀ a, s'.Seen a → Member m f a)
    (hcursor : ∀ v, s'.insn_vma = some v → Cursor m f s' v)
    (hslots : s'.lift_all_insn = true → ¬ Wraps m f ∧ ∀ b, Slot m f b → s'.Seen b) :
    LiftInv m f flag s' where
  start h := absurd (hnodes ▸ hf) h
  patch _ := hpatch
  member := hmember
  nodup := hnodes ▸ hi.nodup
  block := by rw [hnodes, hblocks]; exact hi.block
  empty := by rw [hnodes, hblocks]; exact hi.empty
  created a h := hseen a (hi.created a (hblocks ▸ h))
  harmless := by rw [hnodes]; exact hi.harmless
  closed := by
    rw [hnodes]
    exact fun a ha b hb => hseen b (hi.closed a ha b hb)
  indirect := by rw [hnodes, hindirect]; exact hi.indirect
  callees := by rw [hnodes, hcallees]; exact hi.callees
  stored := by rw [hnodes, storesAll, hwritten]; exact hi.stored
  cursor := hcursor
  slots := hslots

/-- The entry is lifted first. -/
theorem LiftInv.f_mem (hi : LiftInv m f flag s) (h : s.bb_reg_info_node_map ≠ []) :
    f ∈ s.bb_reg_info_node_map := by
  by_contra hf
  exact h (hi.start hf).1

/-- Where an indirect branch was seen, the entry is lifted. -/
theorem LiftInv.f_mem_of_indirect (hi : LiftInv m f flag s)
    (h : s.indirectbr_block = true) : f ∈ s.bb_reg_info_node_map := by
  obtain ⟨a, ha, -⟩ := hi.indirect.mp h
  exact hi.f_mem (List.ne_nil_of_mem ha)

/-- Behind an indirect branch every slot is a member. -/
theorem member_slot (hi : LiftInv m f flag s) (h : s.indirectbr_block = true) {b : Addr}
    (hb : Slot m f b) : Member m f b := by
  obtain ⟨a, ha, hind⟩ := hi.indirect.mp h
  exact .slot (hi.member a (.inl ha)) hind hb

/-- The cursor is one of the slots, and the next position does not wrap. -/
theorem cursor_next {v : Addr} (hc : Cursor m f s v) (hlt : v < m.getFuncVMA_E f) :
    Slot m f v ∧ (v + 4).toNat = v.toNat + 4 := by
  obtain ⟨j, hj, -⟩ := hc.passed
  have hv : v.toNat < (m.getFuncVMA_E f).toNat := BitVec.lt_def.mp hlt
  have hw : (m.getFuncVMA_E f).toNat ≤ 2 ^ 64 - 4 + f.toNat % 4 := not_lt.mp hc.wraps
  have hf := f.isLt
  refine ⟨⟨j, by omega, ?_⟩, ?_⟩
  · apply BitVec.eq_of_toNat_eq
    simp only [BitVec.toNat_add, BitVec.toNat_ofNat]
    omega
  · have h4 : (4 : Addr).toNat = 4 := rfl
    rw [BitVec.toNat_add, h4]
    omega

/-- A slot goes to the work list unless it has a block. -/
theorem liftInv_slot {v : Addr} (hi : LiftInv m f flag s) (hv : s.insn_vma = some v)
    (hlt : v < m.getFuncVMA_E f) :
    LiftInv m f flag { s with
      inst_work_list := if (s.blocks v).isSome then s.inst_work_list
        else setInsert v s.inst_work_list
      insn_vma := some (v + 4) } := by
  have hc := hi.cursor v hv
  obtain ⟨hslot, hnext⟩ := cursor_next hc hlt
  have hf := hi.f_mem_of_indirect hc.indirect
  set work := if (s.blocks v).isSome then s.inst_work_list else setInsert v s.inst_work_list
    with hwork
  have hold : ∀ a ∈ s.inst_work_list, a ∈ work := by
    intro a ha
    rw [hwork]
    split
    · exact ha
    · exact mem_setInsert.mpr (.inr ha)
  -- the work list only grows, and the slot itself is on it or has its block
  have hseen : ∀ a, s.Seen a → a ∈ s.bb_reg_info_node_map ∨ a ∈ work :=
    fun a => Or.imp_right (hold a)
  have hseenv : v ∈ s.bb_reg_info_node_map ∨ v ∈ work := by
    rw [hwork]
    split
    · rename_i h
      exact hi.created v h
    · exact .inr (mem_setInsert.mpr (.inl rfl))
  refine hi.of_seen rfl rfl rfl rfl rfl hf ?_ hseen ?_ ?_ ?_
  · intro hp
    have := (hi.patch hf hp).2.2
    simp [hc.indirect] at this
  · -- what is new on the work list is the slot, a member once the flag is up
    rintro a (ha | ha)
    · exact hi.member a (.inl ha)
    · have ha' : a = v ∨ a ∈ s.inst_work_list := by
        change a ∈ work at ha
        rw [hwork] at ha
        split at ha
        · exact .inr ha
        · exact mem_setInsert.mp ha
      rcases ha' with rfl | ha'
      · exact member_slot hi hc.indirect hslot
      · exact hi.member a (.inr ha')
  · -- the cursor: one more slot is passed, and every slot before it is seen
    rintro v' ⟨⟩
    obtain ⟨j, hj, hpassed⟩ := hc.passed
    refine ⟨hc.indirect, hc.lift_all, hc.wraps, j + 1, by omega, fun i hij => ?_⟩
    rcases Nat.lt_succ_iff_lt_or_eq.mp hij with h | rfl
    · exact hseen _ (hpassed i h)
    · obtain ⟨k, hk, hvk⟩ := hslot
      have hvi : v = f + BitVec.ofNat 64 (4 * i) := by
        apply BitVec.eq_of_toNat_eq
        have hvlt := v.isLt
        simp only [BitVec.toNat_add, BitVec.toNat_ofNat]
        omega
      exact hvi ▸ hseenv
  · intro h
    simp [hc.lift_all] at h

/-- The loop over the slots is done. -/
theorem liftInv_slotsDone {v : Addr} (hi : LiftInv m f flag s) (hv : s.insn_vma = some v)
    (hlt : ¬ v < m.getFuncVMA_E f) :
    LiftInv m f flag { s with lift_all_insn := true, insn_vma := none } := by
  have hc := hi.cursor v hv
  have hf := hi.f_mem_of_indirect hc.indirect
  refine hi.of_seen rfl rfl rfl rfl rfl hf ?_ (fun _ h => h) hi.member (by simp) fun _ => ?_
  · intro hp
    have := (hi.patch hf hp).2.2
    simp [hc.indirect] at this
  · obtain ⟨j, hj, hpassed⟩ := hc.passed
    refine ⟨hc.wraps, ?_⟩
    rintro b ⟨k, hk, rfl⟩
    have hge : ¬ v.toNat < (m.getFuncVMA_E f).toNat := fun h => hlt (BitVec.lt_def.mpr h)
    exact hpassed k (by omega)

/-- The loop over the slots begins. -/
theorem liftInv_slots (hi : LiftInv m f flag s) (hl : s.lift_all_insn = false)
    (hind : s.indirectbr_block = true) (hw : ¬ Wraps m f) :
    LiftInv m f flag { s with insn_vma := some f } := by
  have hf := hi.f_mem_of_indirect hind
  refine hi.of_seen rfl rfl rfl rfl rfl hf ?_ (fun _ h => h) hi.member ?_ fun h => ?_
  · intro hp
    have := (hi.patch hf hp).2.2
    simp [hind] at this
  · rintro v ⟨⟩
    exact ⟨hind, hl, hw, 0, by simp, by simp⟩
  · simp [hl] at h

/-- An address is passed over. -/
theorem liftInv_skip {a : Addr} {rest : List Addr} (hi : LiftInv m f flag s)
    (hv : s.insn_vma = none) (hw : s.inst_work_list = a :: rest)
    (hc : (s.blocks a).getD [] ≠ []) :
    LiftInv m f flag { s with inst_work_list := rest } := by
  have ha : a ∈ s.bb_reg_info_node_map := by
    by_contra h
    exact hc (hi.empty a h)
  have hf := hi.f_mem (List.ne_nil_of_mem ha)
  have hseen : ∀ b, s.Seen b → b ∈ s.bb_reg_info_node_map ∨ b ∈ rest := by
    rintro b (hb | hb)
    · exact .inl hb
    · rw [hw] at hb
      rcases List.mem_cons.mp hb with rfl | hb
      · exact .inl ha
      · exact .inr hb
  refine hi.of_seen rfl rfl rfl rfl rfl hf ?_ hseen ?_ ?_ ?_
  · intro hp
    have := (hi.patch hf hp).1
    simp [hw] at this
  · rintro b (hb | hb)
    · exact hi.member b (.inl hb)
    · exact hi.member b (.inr (by rw [hw]; exact List.mem_cons_of_mem _ hb))
  · intro v h
    change s.insn_vma = some v at h
    simp [hv] at h
  · intro h
    obtain ⟨hwr, hall⟩ := hi.slots h
    exact ⟨hwr, fun b hb => hseen b (hall b hb)⟩

/-- The first address is the entry; after it no patch is pending while work remains. -/
theorem LiftInv.pop (hi : LiftInv m f flag s) {a : Addr} {rest : List Addr}
    (hw : s.inst_work_list = a :: rest) :
    (f ∉ s.bb_reg_info_node_map ∧ a = f ∧ rest = [] ∧ s.tmp_patch_fn_check = flag) ∨
      (f ∈ s.bb_reg_info_node_map ∧ patches m f s.tmp_patch_fn_check = false) := by
  by_cases hf : f ∈ s.bb_reg_info_node_map
  · refine .inr ⟨hf, ?_⟩
    by_contra hp
    have := (hi.patch hf (by simpa using hp)).1
    simp [hw] at this
  · obtain ⟨-, hwork, -, hflag⟩ := hi.start hf
    rw [hw] at hwork
    obtain ⟨rfl, rfl⟩ := List.cons.inj hwork
    exact .inl ⟨hf, rfl, rfl, hflag⟩

/-- The patch is pending for the entry only. -/
theorem harmless_of_pop (hi : LiftInv m f flag s) {a : Addr} {rest : List Addr}
    (hw : s.inst_work_list = a :: rest) (ha : a ∉ s.bb_reg_info_node_map) :
    Harmless m f (patches m f s.tmp_patch_fn_check) a ↔
      Harmless m f (patches m f flag && a == f) a := by
  rcases hi.pop hw with ⟨-, rfl, -, hflag⟩ | ⟨hf, hp⟩
  · simp [hflag]
  · have hne : (a == f) = false := by
      simp only [beq_eq_false_iff_ne]
      rintro rfl
      exact ha hf
    simp [hp, hne]

/-- An address is lifted. -/
theorem liftInv_lift {a : Addr} {rest : List Addr} {e : Emitted} (hi : LiftInv m f flag s)
    (hv : s.insn_vma = none) (hw : s.inst_work_list = a :: rest)
    (ha : a ∉ s.bb_reg_info_node_map) (he : liftInst m f s.tmp_patch_fn_check a = .ok e) :
    LiftInv m f flag (s.lifted rest a e) := by
  have hcon := liftInst_contributes he
  have g := grown_lifted s rest a e
  have hnodes : (s.lifted rest a e).bb_reg_info_node_map = a :: s.bb_reg_info_node_map := g.nodes
  have hmema : Member m f a := hi.member a (.inr (by rw [hw]; exact List.mem_cons_self))
  -- what is seen afterwards: the address, what it contributes, and what was seen before
  have hseen : ∀ b, (s.lifted rest a e).Seen b ↔
      b = a ∨ b ∈ s.bb_reg_info_node_map ∨ b ∈ successors m f a ∨ b ∈ rest := by
    intro b
    rw [Seen, hnodes, g.work, hcon.targets, List.mem_cons, or_assoc]
    rfl
  have hold : ∀ b, s.Seen b → (s.lifted rest a e).Seen b := by
    rintro b (hb | hb)
    · exact (hseen b).mpr (.inr (.inl hb))
    · rw [hw] at hb
      rcases List.mem_cons.mp hb with rfl | hb
      · exact (hseen b).mpr (.inl rfl)
      · exact (hseen b).mpr (.inr (.inr (.inr hb)))
  -- the entry is the first address that is popped
  have hfmem : f ∈ (s.lifted rest a e).bb_reg_info_node_map := by
    rw [hnodes]
    rcases hi.pop hw with ⟨-, rfl, -⟩ | ⟨hf, -⟩
    · exact List.mem_cons_self
    · exact List.mem_cons_of_mem _ hf
  refine ⟨fun h => absurd hfmem h, fun _ hp => ?_, fun b hb => ?_, ?_, ?_, fun b hb => ?_,
    fun b hb => ?_, ?_, ?_, ?_, fun c => ?_, ?_, fun v h => ?_, fun h => ?_⟩
  · -- patch: only the entry, lifted with nothing behind it, leaves the patch pending
    rw [g.patch] at hp
    have hp' : patches m f s.tmp_patch_fn_check = true ∧ e.patched = false := by
      simp only [emit, patches, Bool.not_or, Bool.and_eq_true, Bool.not_eq_true'] at hp ⊢
      exact ⟨⟨hp.1.1, hp.2⟩, hp.1.2⟩
    rcases hi.pop hw with ⟨hf, rfl, rfl, -⟩ | ⟨-, hno⟩
    · rcases patched_of_entry he hp'.1 with hpt | ⟨hsucc, hnind⟩
      · simp [hp'.2] at hpt
      · have hind : s.indirectbr_block = false := by
          by_contra h
          exact hf (hi.f_mem_of_indirect (by simpa using h))
        have heind : e.indirect = false := by
          by_contra h
          exact hnind (hcon.indirect.mp (by simpa using h))
        refine ⟨List.eq_nil_iff_forall_not_mem.mpr fun b hb => ?_, g.insn_vma.trans hv,
          g.indirect.trans (by simp [emit, hind, heind])⟩
        rw [g.work, hcon.targets, hsucc] at hb
        simp [emit] at hb
    · simp [hno] at hp'
  · -- member: a target of the new block is a successor of a member
    rcases (hseen b).mp hb with rfl | hb | hb | hb
    · exact hmema
    · exact hi.member b (.inl hb)
    · exact .succ hmema hb
    · exact hi.member b (.inr (by rw [hw]; exact List.mem_cons_of_mem _ hb))
  · rw [hnodes]
    exact List.nodup_cons.mpr ⟨ha, hi.nodup⟩
  · -- block: the new one contributes what was emitted, the others are kept
    rw [hnodes]
    refine List.forall_mem_cons.mpr ⟨⟨e, hcon, g.keep _ _ (by simp [emit])⟩, fun b hb => ?_⟩
    obtain ⟨e', hcon', hblock⟩ := hi.block b hb
    have hne : b ≠ a := by
      rintro rfl
      exact ha hb
    exact ⟨e', hcon', g.keep _ _ (by simp [emit, hne, hblock])⟩
  · rw [hnodes, List.mem_cons, not_or] at hb
    rw [g.content]
    simpa [emit, hb.1] using hi.empty b hb.2
  · -- created: only targets of the new block have new blocks
    rcases g.created b hb with hb | hb
    · rw [hcon.targets] at hb
      exact (hseen b).mpr (.inr (.inr (.inl hb)))
    · by_cases hba : b = a
      · exact (hseen b).mpr (.inl hba)
      · exact hold b (hi.created b (by simpa [emit, hba] using hb))
  · rw [hnodes]
    refine List.forall_mem_cons.mpr ⟨?_, hi.harmless⟩
    exact (harmless_of_pop hi hw ha).mp (harmless_of_liftInst he)
  · -- closed: the successors of the address are seen, those of the others still are
    rw [hnodes]
    refine List.forall_mem_cons.mpr ⟨fun b hb => (hseen b).mpr (.inr (.inr (.inl hb))),
      fun c hc b hb => hold b (hi.closed c hc b hb)⟩
  · rw [g.indirect, hnodes, List.exists_mem_cons_iff, ← hi.indirect, ← hcon.indirect]
    simp [emit, or_comm]
  · rw [g.callees, hnodes, List.exists_mem_cons_iff, ← hi.callees, ← hcon.callees]
    simp [emit]
  · -- stored: the new call is one more that the storing has to get through
    rw [storesAll, g.written, hnodes, List.forall_mem_cons, ← hi.stored, ← hcon.stored]
    simp [emit, storesAll]
  · have hnone : (s.lifted rest a e).insn_vma = none := g.insn_vma.trans hv
    rw [hnone] at h
    cases h
  · have hl : s.lift_all_insn = true := g.lift_all.symm.trans h
    obtain ⟨hwr, hall⟩ := hi.slots hl
    exact ⟨hwr, fun b hb => hold b (hall b hb)⟩

end Invariant

/-! ### Correctness of the lifting of one function -/

/-- The graph of a lifted function is the specified one. -/
structure Recovered (m : TraceManager) (f : Addr) (s : Lifting) : Prop where
  members : ∀ a, (s.blocks a).isSome = true ↔ Member m f a
  lifted : ∀ a, a ∈ s.bb_reg_info_node_map ↔ Member m f a
  once : s.bb_reg_info_node_map.Nodup
  block : ∀ a b, s.blocks a = some b → OneTerminator b
  tailCall : ∀ a, Member m f a → fate m f a = .tailCall →
    s.blocks a = some [.tailCall (.trace a)]
  stops : ∀ a, Member m f a → fate m f a = .stops →
    ∃ body c, s.blocks a = some (body ++ [.tailCall c]) ∧ (c = .missing_block ∨ c = .error)
  callees : ∀ c, c ∈ s.callees ↔ ∃ a, Member m f a ∧ c ∈ Elfconv.callees m f a
  indirect : s.indirectbr_block = true ↔ ∃ a, Member m f a ∧ IndirectJump m f a

/-- The condition on a function: no member brings the lifter down, and if some member is
an indirect branch, the slots do not run off the end of the address space and the results
of every member can be stored. -/
structure Liftable (m : TraceManager) (f : Addr) (flag : Bool) : Prop where
  harmless : ∀ a, Member m f a → Harmless m f (patches m f flag && a == f) a
  slots : (∃ a, Member m f a ∧ IndirectJump m f a) → ¬ Wraps m f
  stored : (∃ a, Member m f a ∧ IndirectJump m f a) → ∀ a, Member m f a → Storable m f a

/-- Elsewhere than in `_IO_file_xsputn` the flag makes no difference to a function's being
liftable. -/
theorem Liftable.of_ne {m : TraceManager} {f : Addr} {flag flag' : Bool}
    (hx : f ≠ m.io_file_xsputn_vma) (h : Liftable m f flag) : Liftable m f flag' where
  harmless a ha := by
    have hpatches (flag : Bool) : patches m f flag = false := by
      simp only [patches, Bool.and_eq_false_imp, beq_eq_false_iff_ne]
      exact fun _ => hx.symm
    have := h.harmless a ha
    rwa [hpatches] at this ⊢
  slots := h.slots
  stored := h.stored

/-- A function that stays within a list of instructions which all go through. -/
theorem liftable_of_closed {m : TraceManager} {f : Addr} {flag : Bool} {S : List Addr}
    (hf : f ∈ S)
    (hlift : ∀ a ∈ S, ∃ l, m.arch a (m.readInstructionBytes a) = some l ∧ l.Harmless false ∧
      storesResults l.write_regs = true ∧ ∀ b ∈ l.inst.successors m, b ∈ S)
    (hslot : ∀ b, Slot m f b → b ∈ S) (hwraps : ¬ Wraps m f) : Liftable m f flag := by
  have hmember : ∀ a, Member m f a → a ∈ S := fun a ha => by
    refine ha.mem_of_closed (S := {a | a ∈ S}) hf (fun a ha b hb => ?_) fun _ _ _ => hslot
    obtain ⟨l, harch, -, -, hsucc⟩ := hlift a ha
    unfold successors at hb
    split at hb
    · rename_i inst hfate
      refine hsucc b ?_
      unfold fate at hfate
      simp only [harch] at hfate
      split_ifs at hfate
      cases hfate
      exact hb
    · cases hb
  refine ⟨fun a ha => ?_, fun _ => hwraps, fun _ a ha => ?_⟩
  · obtain ⟨l, harch, hl, -, -⟩ := hlift a (hmember a ha)
    exact .inr (.inr ⟨l, harch, fun _ => ⟨hl.foreign, hl.not_taken, fun hi =>
      .inr ((hl.indirect hi).resolve_left Bool.false_ne_true)⟩⟩)
  · obtain ⟨l, harch, -, hstored, -⟩ := hlift a (hmember a ha)
    exact .inr (.inr ⟨l, harch, fun _ => hstored⟩)

/-- The loop over the slots has been entered and will never be left. -/
structure Stuck (m : TraceManager) (f : Addr) (s : Lifting) : Prop where
  wraps : Wraps m f
  cursor : ∃ v, s.insn_vma = some v ∧ v.toNat % 4 = f.toNat % 4

section Correctness

variable {m : TraceManager} {f : Addr} {flag : Bool} {s s' : Lifting}

/-- What cannot be lifted stays in the way. -/
theorem stuck_turn (h : Stuck m f s) (ht : Turn m f s s') : Stuck m f s' := by
  obtain ⟨v, hv, hal⟩ := h.cursor
  have hnone : s.insn_vma ≠ none := by simp [hv]
  cases ht with
  | slot v' hv' _ =>
      cases hv.symm.trans hv'
      refine ⟨h.wraps, v + 4, rfl, ?_⟩
      rw [BitVec.toNat_add, show (4 : Addr).toNat = 4 from rfl]
      omega
  | slotsDone v' hv' hlt =>
      cases hv.symm.trans hv'
      -- every address in step with `f` is below `vma_e`
      refine absurd (BitVec.lt_def.mpr ?_) hlt
      have hw : 2 ^ 64 - 4 + f.toNat % 4 < (m.getFuncVMA_E f).toNat := h.wraps
      have hlt64 := v.isLt
      omega
  | skip a rest hv' => exact absurd hv' hnone
  | lift a rest e hv' => exact absurd hv' hnone
  | slots hv' => exact absurd hv' hnone

/-- A turn keeps the invariant, or enters the loop over the slots for ever. -/
theorem liftInv_turn (hi : LiftInv m f flag s) (ht : Turn m f s s') :
    LiftInv m f flag s' ∨ Stuck m f s' := by
  cases ht with
  | slot v hv hlt => exact .inl (liftInv_slot hi hv hlt)
  | slotsDone v hv hlt => exact .inl (liftInv_slotsDone hi hv hlt)
  | skip a rest hv hw hc => exact .inl (liftInv_skip hi hv hw hc)
  | lift a rest e hv hw ha he => exact .inl (liftInv_lift hi hv hw ha he)
  | slots hv hw hl hind =>
      by_cases hwr : Wraps m f
      · exact .inr ⟨hwr, f, rfl, rfl⟩
      · exact .inl (liftInv_slots hi hl hind hwr)

/-- With an empty work list everything seen is lifted. -/
theorem seen_done (hw : s.inst_work_list = []) {a : Addr} :
    s.Seen a ↔ a ∈ s.bb_reg_info_node_map := by
  simp [Seen, hw]

/-- When the work list is empty, the lifted addresses are the members. -/
theorem LiftInv.mem_iff (hi : LiftInv m f flag s) (hw : s.inst_work_list = [])
    (hall : s.indirectbr_block = true → s.lift_all_insn = true) {a : Addr} :
    a ∈ s.bb_reg_info_node_map ↔ Member m f a := by
  refine ⟨fun h => hi.member a (.inl h), fun h => ?_⟩
  induction h with
  | entry =>
      by_contra hf
      have := (hi.start hf).2.1
      simp [hw] at this
  | succ _ hb ih => exact (seen_done hw).mp (hi.closed _ ih _ hb)
  | slot _ hind hb ih =>
      have hl := hall (hi.indirect.mpr ⟨_, ih, hind⟩)
      exact (seen_done hw).mp ((hi.slots hl).2 _ hb)

theorem OneTerminator.exists {block : List Piece} (h : OneTerminator block) :
    ∃ p ∈ block, p.isTerminator = true := by
  obtain ⟨body, t, rfl, ht, -⟩ := h
  exact ⟨t, by simp, ht⟩

/-- The final pass finds a terminator in every block. -/
theorem addMissingTerminators_eq (hi : LiftInv m f flag s) (hw : s.inst_work_list = []) :
    s.addMissingTerminators = s := by
  have hblocks : s.addMissingTerminators.blocks = s.blocks := by
    funext a
    rcases h : s.blocks a with - | b
    · simp [addMissingTerminators, h]
    · have ha : a ∈ s.bb_reg_info_node_map :=
        (seen_done hw).mp (hi.created a (by simp [h]))
      obtain ⟨e, hcon, hblock⟩ := hi.block a ha
      have hb : b = e.block := Option.some.inj (h.symm.trans hblock)
      simp [addMissingTerminators, h, hb, hcon.block.exists]
  calc s.addMissingTerminators
      = { s with blocks := s.addMissingTerminators.blocks } := rfl
    _ = { s with blocks := s.blocks } := by rw [hblocks]

/-- **At the end the graph is the specified one.** -/
theorem recovered_of_done (hi : LiftInv m f flag s) (hw : s.inst_work_list = [])
    (hdone : s.indirectbr_block = true → s.lift_all_insn = true ∧ s.storesAll = true) :
    Recovered m f s ∧ Liftable m f flag := by
  -- with nothing left to lift, what is lifted is what the rules give
  have hmem : ∀ a, a ∈ s.bb_reg_info_node_map ↔ Member m f a := fun a =>
    hi.mem_iff hw fun h => (hdone h).1
  have hblock : ∀ a, Member m f a → ∃ e, Contributes m f a e ∧ s.blocks a = some e.block :=
    fun a ha => hi.block a ((hmem a).mpr ha)
  have hcreated : ∀ a, (s.blocks a).isSome = true → Member m f a :=
    fun a ha => (hmem a).mp ((seen_done hw).mp (hi.created a ha))
  refine ⟨⟨fun a => ⟨hcreated a, fun ha => ?_⟩, hmem, hi.nodup, fun a b hb => ?_,
    fun a ha hfate => ?_, fun a ha hfate => ?_, fun c => ?_, ?_⟩, fun a ha => ?_, ?_, ?_⟩
  · obtain ⟨e, -, h⟩ := hblock a ha
    simp [h]
  · obtain ⟨e, hcon, h⟩ := hblock a (hcreated a (by simp [hb]))
    cases hb.symm.trans h
    exact hcon.block
  · obtain ⟨e, hcon, h⟩ := hblock a ha
    rw [h, hcon.tailCall hfate]
  · obtain ⟨e, hcon, h⟩ := hblock a ha
    obtain ⟨body, c, hb, hc⟩ := hcon.stops hfate
    exact ⟨body, c, by rw [h, hb], hc⟩
  · simp only [hi.callees, hmem]
  · simp only [hi.indirect, hmem]
  · exact hi.harmless a ((hmem a).mpr ha)
  · rintro ⟨a, ha, hind⟩
    exact (hi.slots (hdone (hi.indirect.mpr ⟨a, (hmem a).mpr ha, hind⟩)).1).1
  · rintro ⟨a, ha, hind⟩ b hb
    exact hi.stored.mp (hdone (hi.indirect.mpr ⟨a, (hmem a).mpr ha, hind⟩)).2 b ((hmem b).mpr hb)

/-- **Partial correctness**: if the lifting of a function returns, the function has the
specified graph, and it was liftable. -/
theorem recovered_of_halts {r : Except Crash Lifting}
    (h : Machine.Halts (liftStep m f) (.init f flag) r) :
    ∀ s', r = .ok s' → Recovered m f s' ∧ Liftable m f flag := by
  refine Machine.inv_of_halts (I := fun s => LiftInv m f flag s ∨ Stuck m f s)
    (Q := fun r => ∀ s', r = .ok s' → Recovered m f s' ∧ Liftable m f flag) ?_ ?_
    (.inl liftInv_init) h
  · rintro s s' (hi | hst) hstep
    · exact liftInv_turn hi (turn_of_step hstep)
    · exact .inr (stuck_turn hst (turn_of_step hstep))
  · rintro s r (hi | hst) hstop s' rfl
    · cases stop_of_step hstop with
      | done hv hw hall =>
          rw [addMissingTerminators_eq hi hw]
          exact recovered_of_done hi hw hall
    · obtain ⟨v, hv, -⟩ := hst.cursor
      cases stop_of_step hstop with
      | done hv' => simp [hv] at hv'

/-! Total correctness. -/

/-- No instruction has more than two successors. -/
theorem successors_length_le (m : TraceManager) (f a : Addr) :
    (successors m f a).length ≤ 2 := by
  unfold successors
  split
  · rename_i inst _
    rcases h : inst.category <;> simp only [Instruction.successors, h] <;> first
      | simp
      | split <;> simp
  · simp

/-- The first component goes down when the loop over the slots is entered and when it is
left; within a phase, either the cursor moves or the work shrinks against the addresses
that are still to be lifted. -/
def liftMeasure (s : Lifting) : Nat × Nat :=
  match s.insn_vma with
  | some v => (1, 2 ^ 64 - v.toNat)
  | none => (if s.lift_all_insn then 0 else 2,
      3 * (Fintype.card Addr - s.bb_reg_info_node_map.length) + s.inst_work_list.length)

/-- Lifting an address leaves fewer to lift. -/
theorem liftMeasure_lift {a : Addr} {rest : List Addr} {e : Emitted}
    (hi : LiftInv m f flag s) (hv : s.insn_vma = none) (hw : s.inst_work_list = a :: rest)
    (ha : a ∉ s.bb_reg_info_node_map) (he : liftInst m f s.tmp_patch_fn_check a = .ok e) :
    Prod.Lex (· < ·) (· < ·) (liftMeasure (s.lifted rest a e)) (liftMeasure s) := by
  have g := grown_lifted s rest a e
  have hnodes : (s.lifted rest a e).bb_reg_info_node_map = a :: s.bb_reg_info_node_map := g.nodes
  have hvma : (s.lifted rest a e).insn_vma = none := g.insn_vma.trans hv
  have hall : (s.lifted rest a e).lift_all_insn = s.lift_all_insn := g.lift_all
  have hlen : (s.lifted rest a e).inst_work_list.length ≤ rest.length + 2 := by
    have htwo := successors_length_le m f a
    rw [← (liftInst_contributes he).targets] at htwo
    have hg : (s.lifted rest a e).inst_work_list.length ≤ rest.length + e.targets.length :=
      g.length
    omega
  have hcard : (a :: s.bb_reg_info_node_map).length ≤ Fintype.card Addr :=
    (List.nodup_cons.mpr ⟨ha, hi.nodup⟩).length_le_card
  simp only [List.length_cons] at hcard
  simp only [liftMeasure, hvma, hv, hall, hnodes, hw, List.length_cons]
  exact .right _ (by omega)

/-- Every turn makes the measure smaller. -/
theorem liftMeasure_turn (hi : LiftInv m f flag s) (ht : Turn m f s s') :
    Prod.Lex (· < ·) (· < ·) (liftMeasure s') (liftMeasure s) := by
  cases ht with
  | slot v hv hlt =>
      have hnext := (cursor_next (hi.cursor v hv) hlt).2
      simp only [liftMeasure, hv]
      have := v.isLt
      exact .right _ (by omega)
  | slotsDone v hv hlt =>
      simp only [liftMeasure, hv, if_true]
      exact .left _ _ (by omega)
  | skip a rest hv hw hc =>
      simp only [liftMeasure, hv, hw, List.length_cons]
      exact .right _ (by omega)
  | lift a rest e hv hw ha he => exact liftMeasure_lift hi hv hw ha he
  | slots hv hw hl hind =>
      simp only [liftMeasure, hv, hl]
      exact .left _ _ (by simp)

/-- In a liftable function no turn gets stuck in the loop over the slots. -/
theorem not_stuck_turn (h : Liftable m f flag) (hi : LiftInv m f flag s)
    (ht : Turn m f s s') : ¬ Stuck m f s' := by
  intro hst
  obtain ⟨v', hv', -⟩ := hst.cursor
  cases ht with
  | slot v hv => exact (hi.cursor v hv).wraps hst.wraps
  | slotsDone v hv => exact (hi.cursor v hv).wraps hst.wraps
  | skip a rest hv =>
      change s.insn_vma = some v' at hv'
      simp [hv] at hv'
  | lift a rest e hv hw ha he =>
      have g := grown_foldl e.targets (({ s with
        inst_work_list := rest
        bb_reg_info_node_map := a :: s.bb_reg_info_node_map }).emit a e)
      have hnone : (s.lifted rest a e).insn_vma = none := g.insn_vma.trans hv
      simp [hnone] at hv'
  | slots hv hw hl hind =>
      -- some member is an indirect branch, so the slots do not wrap
      obtain ⟨a, ha, hj⟩ := hi.indirect.mp hind
      exact h.slots ⟨a, hi.member a (.inl ha), hj⟩ hst.wraps

/-- A liftable function stops only with a result. -/
theorem ok_of_stop (h : Liftable m f flag) (hi : LiftInv m f flag s)
    {r : Except Crash Lifting} (hs : Stop m f s r) : ∃ s', r = .ok s' := by
  cases hs with
  | done => exact ⟨_, rfl⟩
  | store hv hw hall hind hstore =>
      -- the lifted addresses are members, and their results can be stored
      obtain ⟨a, ha, hj⟩ := hi.indirect.mp hind
      have hstored := h.stored ⟨a, hi.member a (.inl ha), hj⟩
      have := hi.stored.mpr fun b hb => hstored b (hi.member b (.inl hb))
      simp [hstore] at this
  | mapped a rest hv hw ha hc =>
      obtain ⟨e, hcon, hblock⟩ := hi.block a ha
      obtain ⟨body, t, hb, -⟩ := hcon.block
      simp [hblock, hb] at hc
  | crash a rest c hv hw ha hc =>
      have hmem : Member m f a := hi.member a (.inr (by rw [hw]; exact List.mem_cons_self))
      have hharm := (harmless_of_pop hi hw ha).mpr (h.harmless a hmem)
      obtain ⟨e, he⟩ := liftInst_spec.2 hharm
      simp [he] at hc

/-- **Total correctness**: a liftable function is lifted. -/
theorem halts_of_liftable (h : Liftable m f flag) :
    ∃ s', Machine.Halts (liftStep m f) (.init f flag) (.ok s') := by
  have hwf : WellFounded (Prod.Lex (· < ·) (· < ·) : Nat × Nat → Nat × Nat → Prop) :=
    WellFounded.prod_lex Nat.lt_wfRel.wf Nat.lt_wfRel.wf
  have hstep : ∀ s s', LiftInv m f flag s → liftStep m f s = .inl s' →
      LiftInv m f flag s' ∧ Prod.Lex (· < ·) (· < ·) (liftMeasure s') (liftMeasure s) := by
    intro s s' hi hs
    have ht := turn_of_step hs
    exact ⟨(liftInv_turn hi ht).resolve_right (not_stuck_turn h hi ht),
      liftMeasure_turn hi ht⟩
  have hstop : ∀ s r, LiftInv m f flag s → liftStep m f s = .inr r → ∃ s', r = .ok s' :=
    fun s r hi hs => ok_of_stop h hi (stop_of_step hs)
  obtain ⟨r, hr, s', rfl⟩ :=
    Machine.halts_of_measure _ hwf liftMeasure hstep hstop liftInv_init
  exact ⟨s', hr⟩

end Correctness

end Elfconv
