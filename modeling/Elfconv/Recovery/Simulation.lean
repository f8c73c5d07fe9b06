/-
Elfconv/Recovery/Simulation.lean

The lifted program does what the instruction machine does.

`Matches` relates a point of the guest program to the host: the host is at the start of the
block of the program counter, and below it are the activations of the calls that have not
returned, with activations of tail calls between them.  `follows_arrive`, `follows_leave`
and `follows_next` say where the host gets from the pieces of a block; `simulates` puts them
together.
-/
import Elfconv.Recovery.Execution

namespace Elfconv

open Machine

variable {G : Type} {m : TraceManager}

/-! ### The blocks of an image -/

namespace LiftedImage

variable (im : LiftedImage m) {f a : Addr}

/-- The block of a member is what the loop body emits. -/
theorem block_of_member (hf : m.isFunctionEntry f = true) (ha : Member m f a) :
    ∃ e, liftInst m f (flagAt f false a) a = .ok e ∧ im.blockOf f a = e.block := by
  obtain ⟨s, hs⟩ := Option.ne_none_iff_exists'.mp (im.all f hf)
  have hmem : a ∈ s.bb_reg_info_node_map := ((im.sound.recovered f s hs).lifted a).mpr ha
  obtain ⟨e, he, hblock⟩ := im.sound.emits f s hs a hmem
  exact ⟨e, he, by simp [blockOf, hs, hblock]⟩

/-- The tables have the function, with its members. -/
theorem functionOf_spec (hf : m.isFunctionEntry f = true) :
    im.functionOf f ∈ im.program.functions ∧ (im.functionOf f).trace_addr = f ∧
      (∀ a, a ∈ (im.functionOf f).lifted_block_map ↔ Member m f a) ∧
      ((im.functionOf f).indirectbr_block = true ↔ ∃ a, Member m f a ∧ IndirectJump m f a) := by
  obtain ⟨s, hs⟩ := Option.ne_none_iff_exists'.mp (im.all f hf)
  have he : im.functionOf f = s.function f := by simp [functionOf, hs]
  have hrec := im.sound.recovered f s hs
  rw [he]
  exact ⟨(im.functions _).mpr ⟨f, s, hs, rfl⟩, rfl, hrec.lifted, hrec.indirect⟩

/-- The function table has function entries only. -/
theorem isFunctionEntry_of_entries (ha : a ∈ im.program.entries) :
    m.isFunctionEntry a = true := by
  have hmem : a ∈ im.program.functions.map LiftedFunction.trace_addr :=
    im.program.perm.subset ((List.takeWhile_sublist _).subset ha)
  obtain ⟨fn, hfn, rfl⟩ := List.mem_map.mp hmem
  obtain ⟨f, s, hs, rfl⟩ := (im.functions fn).mp hfn
  exact im.sound.entry f s hs

end LiftedImage

/-- The patch is pending at the entry of its function only. -/
theorem patches_flagAt (f a : Addr) : patches m f (flagAt f false a) = m.patchedAt f a := by
  simp [patches, flagAt, TraceManager.patchedAt, bne]

/-- The block of a decoded instruction: its code, the patch, and the connection. -/
theorem block_of_inst {f a : Addr} {l : LiftedInst} {e : Emitted}
    (htail : ¬ (a ≠ f ∧ m.isFunctionEntry a = true)) (hbytes : m.readInstructionBytes a ≠ [])
    (harch : m.arch a (m.readInstructionBytes a) = some l)
    (he : liftInst m f (flagAt f false a) a = .ok e) :
    e.block = .inst :: ((if m.patchedAt f a then [.temp_patch_f_flags] else []) ++
        if l.lifted then l.inst.connection m else [.tailCall .error]) ∧
      (l.lifted = true → l.inst.category.foreign = false ∧
        (l.inst.category.isIndirect = true →
          m.patchedAt f a = true ∨ (findIndirectBrAddress l.loads).isSome = true)) := by
  have hharm := harmless_of_liftInst he
  rw [patches_flagAt] at hharm
  have hpatch : (!flagAt f false a && m.io_file_xsputn_vma == f) = m.patchedAt f a :=
    patches_flagAt f a
  constructor
  · simp only [liftInst, if_neg htail, if_neg hbytes, harch, hpatch] at he
    split at he
    · rename_i hl
      obtain ⟨-, rfl⟩ := connectBlocks_ok.mp he
      rw [if_pos hl]
      cases m.patchedAt f a <;> rfl
    · rename_i hl
      cases he
      rw [if_neg hl]
      cases m.patchedAt f a <;> rfl
  -- that it went through says that the category is one of AArch64
  · intro hl
    rcases hharm with h | h | ⟨l', hl', h⟩
    · exact absurd h htail
    · exact absurd h hbytes
    · cases harch.symm.trans hl'
      have hh := h hl
      exact ⟨hh.foreign, fun hi => (hh.indirect hi).imp id findIndirectBrAddress_isSome.mpr⟩

/-! ### Where the host is -/

section Matches

variable (im : LiftedImage m)

/-- The activations below the current one, for the calls that have not returned: a tail
call waits to return, a call to go on in its function. -/
inductive Suspended : List (Addr × Addr) → List Activation → Prop
  | nil : Suspended [] []
  | tailCall {returns : List (Addr × Addr)} {t : Activation} {stack : List Activation} :
      t.rest = [.ret] → Suspended returns stack → Suspended returns (t :: stack)
  | call {pc : Addr} {returns : List (Addr × Addr)} {t : Activation}
      {stack : List Activation} : t.rest = [.br pc] → m.isFunctionEntry t.fn = true →
      Member m t.fn pc → Suspended returns stack →
      Suspended ((t.fn, pc) :: returns) (t :: stack)

/-- The parts of the host that no branch within a function changes. -/
structure Runs (x : Position G) (h : Host G) : Prop where
  fn : h.top.fn = x.fn
  entry : m.isFunctionEntry x.fn = true
  state : h.state = x.state
  stack : Suspended (m := m) x.returns h.stack
  runtime : LiftedProgram.BranchInv im.program h.runtime

/-- The host is at the start of the block of the program counter. -/
structure Inside (x : Position G) (h : Host G) : Prop extends Runs im x h where
  vma : h.top.vma = x.pc
  rest : h.top.rest = im.blockOf x.fn x.pc
  member : Member m x.fn x.pc

/-- The block is not that of a tail call. -/
structure Matches (x : Position G) (h : Host G) : Prop extends Inside im x h where
  settled : ¬ (x.pc ≠ x.fn ∧ m.isFunctionEntry x.pc = true)

end Matches

/-! ### Branches, returns and calls -/

section Pieces

variable {im : LiftedImage m} {code : InstCode G} {x : Position G} {h : Host G}

/-- Control gets to the block of an address: a tail call, if another function starts there. -/
theorem follows_arrive {dst : Addr} (hw : Inside im { x with pc := dst } h) :
    Follows (Matches im) (hostStep im code) h (.inl (x.arrive m dst)) := by
  by_cases htail : dst ≠ x.fn ∧ m.isFunctionEntry dst = true
  · obtain ⟨e, he, hblock⟩ := im.block_of_member hw.entry hw.member
    have hrest : h.top.rest = [.tailCall (.trace dst)] := by
      rw [hw.rest, hblock]
      simp only [liftInst, if_pos htail] at he
      cases he
      rfl
    have hstep : hostStep im code h =
        .inl (h.enter im { h.top with rest := [.ret] } dst) := by
      simp only [hostStep, hrest, Host.call]
    rw [Position.arrive, if_pos htail]
    refine .of_step hstep (.refl ?_)
    exact ⟨⟨⟨rfl, htail.2, hw.state, .tailCall rfl hw.stack, hw.runtime⟩, rfl, rfl, .entry⟩,
      fun h => h.1 rfl⟩
  · rw [Position.arrive, if_neg htail]
    exact .refl ⟨hw, htail⟩

/-- A jump within the function is a jump to its block. -/
theorem within_goto {t : Activation} {dst : Addr} (hfn : t.fn = x.fn) (hr : Runs im x h)
    (hm : Member m x.fn dst) :
    Inside im { x with pc := dst } { h with top := im.goto t dst } where
  fn := hfn
  entry := hr.entry
  state := hr.state
  stack := hr.stack
  runtime := hr.runtime
  vma := rfl
  rest := congrArg (fun fn => im.blockOf fn dst) hfn
  member := hm

/-- The host follows a jump within the function. -/
theorem follows_goto {dst : Addr} (hr : Runs im x h) (hrest : h.top.rest = [.br dst])
    (hm : Member m x.fn dst) :
    Follows (Matches im) (hostStep im code) h (.inl (x.arrive m dst)) := by
  have hstep : hostStep im code h =
      .inl { h with top := im.goto { h.top with rest := [] } dst } := by
    simp only [hostStep, hrest]
  have hfn : ({ h.top with rest := [] } : Activation).fn = x.fn := hr.fn
  exact .of_step hstep (follows_arrive (within_goto hfn hr hm))

/-- The function returns: the activations of tail calls return with it. -/
theorem follows_leave {returns : List (Addr × Addr)} {stack : List Activation}
    (hs : Suspended (m := m) returns stack) : ∀ {x : Position G} {h : Host G},
      x.returns = returns → h.stack = stack → h.state = x.state →
      LiftedProgram.BranchInv im.program h.runtime → h.top.rest = [.ret] →
      Follows (Matches im) (hostStep im code) h (x.leave m) := by
  induction hs with
  | nil =>
      intro x h hx hh hstate hrt hrest
      rw [Position.leave, hx]
      refine .of_stop ?_
      simp only [hostStep, hrest, hh, hstate]
  | @tailCall returns t stack ht hs ih =>
      intro x h hx hh hstate hrt hrest
      have hstep : hostStep im code h = .inl { h with top := t, stack } := by
        simp only [hostStep, hrest, hh]
      exact .of_step hstep (ih hx rfl hstate hrt ht)
  | @call pc returns t stack ht hentry hm hs ih =>
      intro x h hx hh hstate hrt hrest
      have hstep : hostStep im code h = .inl { h with top := t, stack } := by
        simp only [hostStep, hrest, hh]
      rw [Position.leave, hx]
      have hr : Runs im { x with fn := t.fn, returns } { h with top := t, stack } :=
        ⟨rfl, hentry, hstate, hs, hrt⟩
      exact .of_step hstep (follows_goto hr ht hm)

/-- A function is called, and the current one goes on at `pc`. -/
theorem follows_enter {t : Activation} {a pc : Addr} (hr : Runs im x h) (hfn : t.fn = x.fn)
    (ht : t.rest = [.br pc]) (ha : m.isFunctionEntry a = true) (hm : Member m x.fn pc) :
    Follows (Matches im) (hostStep im code) (h.enter im t a) (.inl (x.call a pc)) := by
  refine .refl ⟨⟨⟨rfl, ha, hr.state, ?_, hr.runtime⟩, rfl, rfl, .entry⟩, fun h => h.1 rfl⟩
  have hcall := Suspended.call ht (hfn ▸ hr.entry) (hfn ▸ hm) hr.stack
  rw [hfn] at hcall
  exact hcall

/-- A function takes over. -/
theorem follows_tailCall {t : Activation} {a : Addr} (hr : Runs im x h) (ht : t.rest = [.ret])
    (ha : m.isFunctionEntry a = true) :
    Follows (Matches im) (hostStep im code) (h.enter im t a) (.inl (x.enter a)) :=
  .refl ⟨⟨⟨rfl, ha, hr.state, .tailCall ht hr.stack, hr.runtime⟩, rfl, rfl, .entry⟩,
    fun h => h.1 rfl⟩

/-! ### Indirect branches -/

/-- The caches of the runtime do not matter. -/
theorem Runs.of_runtime {rt : BranchRuntime} (hr : Runs im x h)
    (hi : LiftedProgram.BranchInv im.program rt) : Runs im x { h with runtime := rt } where
  fn := hr.fn
  entry := hr.entry
  state := hr.state
  stack := hr.stack
  runtime := hi

/-- `BLR`: the function table decides. -/
theorem follows_blr {t : Activation} {addr pc : Addr} (hr : Runs im x h) (hfn : t.fn = x.fn)
    (ht : t.rest = [.br pc]) (hm : Member m x.fn pc) :
    (addr ∈ im.program.entries ∧ ∃ h',
      h.control im t (h.runtime.exec (.blr () addr)) = .inl h' ∧
      Follows (Matches im) (hostStep im code) h' (.inl (x.call addr pc))) ∨
    (addr ∉ im.program.entries ∧
      h.control im t (h.runtime.exec (.blr () addr)) = .inr (.branch .blr)) := by
  rcases LiftedProgram.remill_function_call_spec hr.runtime () addr with
    ⟨ha, rt, e, hi⟩ | ⟨ha, e⟩
  · refine .inl ⟨ha, ({ h with runtime := rt }).enter im t addr, ?_,
      follows_enter (hr.of_runtime hi) hfn ht (im.isFunctionEntry_of_entries ha) hm⟩
    simp only [BranchRuntime.exec, bind, Except.bind, e, Host.control]
  · refine .inr ⟨ha, ?_⟩
    simp only [BranchRuntime.exec, bind, Except.bind, e, Host.control]

/-- The way of `BR` through `br_to_func_block`. -/
theorem follows_br_to_func {t : Activation} {fn : LiftedFunction} {addr g : Addr}
    (hr : Runs im x h)
    (hget : g_get_indirectbr_block_address h.runtime fn.trace_addr addr =
      .ok (some (.br_to_func g))) :
    (addr ∈ im.program.entries ∧ ∃ h',
      h.control im t (h.runtime.exec (.br fn () addr)) = .inl h' ∧
      Follows (Matches im) (hostStep im code) h' (.inl (x.enter addr))) ∨
    (addr ∉ im.program.entries ∧
      h.control im t (h.runtime.exec (.br fn () addr)) = .inr (.branch .br)) := by
  rcases LiftedProgram.exec_br_to_func hr.runtime () hget with ⟨ha, rt, e, hi⟩ | ⟨ha, e⟩
  · refine .inl ⟨ha, ({ h with runtime := rt }).enter im { t with rest := [.ret] } addr, ?_,
      follows_tailCall (hr.of_runtime hi) rfl (im.isFunctionEntry_of_entries ha)⟩
    simp only [e, Host.control]
  · exact .inr ⟨ha, by simp only [e, Host.control]⟩

/-- `BR`: the block table of the function decides, and then the function table. -/
theorem follows_br {addr : Addr} (hr : Runs im x h)
    (hind : ∃ a, Member m x.fn a ∧ IndirectJump m x.fn a) (hrest : h.top.rest = [.brIndirect])
    (haddr : h.top.indirect_addr = some addr) :
    Follows (Matches im) (hostStep im code) h
      (if addr ≠ UINT64_MAX ∧ addr ∈ (im.functionOf x.fn).lifted_block_map then
        .inl (x.arrive m addr)
      else if x.fn ∈ im.program.entries ∨ addr = UINT64_MAX then
        if addr ∈ im.program.entries then .inl (x.enter addr) else .inr (.branch .br)
      else .inr (.branch .block_address)) := by
  obtain ⟨hmem, hfn, hblocks, hbr⟩ := im.functionOf_spec hr.entry
  have hget := LiftedProgram.get_block_spec (t := addr) hr.runtime hmem (hbr.mpr hind)
  rw [hfn] at hget
  have hstep : hostStep im code h = h.control im { h.top with rest := [] }
      (h.runtime.exec (.br (im.functionOf x.fn) () addr)) := by
    simp only [hostStep, hrest, haddr, hr.fn]
  -- what both ways to `br_to_func_block` have in common
  have hfunc : g_get_indirectbr_block_address h.runtime x.fn addr =
        .ok (some (.br_to_func x.fn)) → Follows (Matches im) (hostStep im code) h
      (if addr ∈ im.program.entries then .inl (x.enter addr) else .inr (.branch .br)) := by
    intro hget
    rcases follows_br_to_func (t := { h.top with rest := [] }) hr (hfn.symm ▸ hget) with
      ⟨ha, h', hcontrol, hf⟩ | ⟨ha, hcontrol⟩
    · rw [if_pos ha]
      exact .of_step (hstep.trans hcontrol) hf
    · rw [if_neg ha]
      exact .of_stop (hstep.trans hcontrol)
  by_cases hmax : addr = UINT64_MAX
  · rw [if_neg fun h => h.1 hmax, if_pos (.inr hmax)]
    exact hfunc (hget.trans (if_pos hmax))
  · rw [if_neg hmax] at hget
    by_cases hblock : addr ∈ (im.functionOf x.fn).lifted_block_map
    · rw [if_pos hblock] at hget
      rw [if_pos ⟨hmax, hblock⟩]
      have hcontrol : h.control im { h.top with rest := [] }
          (h.runtime.exec (.br (im.functionOf x.fn) () addr)) =
          .inl { h with top := im.goto { h.top with rest := [] } addr } := by
        simp only [BranchRuntime.exec, hfn, hget, bind, Except.bind, Host.control]
      have htop : ({ h.top with rest := [] } : Activation).fn = x.fn := hr.fn
      exact .of_step (hstep.trans hcontrol)
        (follows_arrive (within_goto htop hr ((hblocks addr).mp hblock)))
    · rw [if_neg hblock] at hget
      rw [if_neg fun h => hblock h.2]
      by_cases hentry : x.fn ∈ im.program.entries
      · rw [if_pos (.inl hentry)]
        exact hfunc (hget.trans (if_pos hentry))
      · rw [if_neg fun h => h.elim hentry hmax]
        refine .of_stop (hstep.trans ?_)
        simp only [BranchRuntime.exec, hfn, hget, if_neg hentry, bind, Except.bind, Host.control]

/-! ### The end of a block -/

/-- The pieces behind an instruction lead where the instruction leads. -/
theorem follows_next {inst : Instruction} (hr : Runs im x h)
    (hfate : fate m x.fn x.pc = .runs inst) (hm : Member m x.fn x.pc)
    (hforeign : inst.category.foreign = false)
    (haddr : inst.category.isIndirect = true → h.top.indirect_addr ≠ none)
    (hrest : h.top.rest = inst.connection m) :
    Follows (Matches im) (hostStep im code) h
      (x.next im inst h.top.branch_taken h.top.indirect_addr) := by
  have hsucc : ∀ b ∈ inst.successors m, Member m x.fn b := fun b hb =>
    .succ hm (by rw [successors, hfate]; exact hb)
  -- the cases are those of the switch over the categories
  cases hc : inst.category with
  | invalid | error =>
      simp only [Instruction.connection, hc] at hrest
      simp only [Position.next, hc]
      refine .of_stop ?_
      simp only [hostStep, hrest, Host.call]
  | normal | noOp =>
      simp only [Instruction.connection, hc] at hrest
      simp only [Position.next, hc]
      exact follows_goto hr hrest (hsucc _ (by simp [Instruction.successors, hc]))
  | directJump =>
      simp only [Instruction.connection, hc] at hrest
      simp only [Position.next, hc]
      exact follows_goto hr hrest (hsucc _ (by simp [Instruction.successors, hc]))
  | conditionalBranch =>
      simp only [Instruction.connection, hc] at hrest
      simp only [Position.next, hc]
      have hstep : hostStep im code h = .inl { h with
          top := im.goto { h.top with rest := [] } (if h.top.branch_taken then
            inst.branch_taken_pc else inst.branch_not_taken_pc) } := by
        simp only [hostStep, hrest]
      have hfn : ({ h.top with rest := [] } : Activation).fn = x.fn := hr.fn
      refine .of_step hstep (follows_arrive (within_goto hfn hr ?_))
      split
      · exact hsucc _ (by simp [Instruction.successors, hc])
      · exact hsucc _ (by simp [Instruction.successors, hc])
  | asyncHyperCall =>
      simp only [Instruction.connection, hc] at hrest
      simp only [Position.next, hc]
      split at hrest
      · rename_i hentry
        rw [if_pos hentry]
        exact follows_leave hr.stack rfl rfl hr.state hr.runtime hrest
      · rename_i hentry
        rw [if_neg hentry]
        exact follows_goto hr hrest (hsucc _ (by simp [Instruction.successors, hc, hentry]))
  | functionReturn =>
      simp only [Instruction.connection, hc] at hrest
      simp only [Position.next, hc]
      have hstep : hostStep im code h =
          .inl { h with top := { h.top with rest := [.ret] } } := by
        simp only [hostStep, hrest, Host.call]
      refine .of_step hstep (follows_leave hr.stack rfl rfl hr.state hr.runtime rfl)
  | directFunctionCall =>
      simp only [Instruction.connection, Instruction.callees, hc, true_and] at hrest
      simp only [Position.next, hc]
      have hnot := hsucc inst.branch_not_taken_pc (by simp [Instruction.successors, hc])
      split at hrest
      · rename_i hcall
        rw [if_pos hcall]
        have hstep : hostStep im code h = .inl (h.enter im
            { h.top with rest := [.br inst.branch_not_taken_pc] } inst.branch_taken_pc) := by
          rw [hostStep, hrest]
          rfl
        exact .of_step hstep (follows_enter hr hr.fn rfl hcall.1 hnot)
      · rename_i hcall
        rw [if_neg hcall]
        exact follows_goto hr hrest hnot
  | indirectFunctionCall =>
      simp only [Instruction.connection, hc] at hrest
      obtain ⟨addr, ha⟩ := Option.ne_none_iff_exists'.mp (haddr (by simp [hc, Category.isIndirect]))
      simp only [Position.next, hc, ha, List.contains_iff_mem]
      have hnot := hsucc inst.branch_not_taken_pc (by simp [Instruction.successors, hc])
      have hstep : hostStep im code h = h.control im
          { h.top with rest := [.br inst.branch_not_taken_pc] }
          (h.runtime.exec (.blr () addr)) := by
        simp only [hostStep, hrest, Host.call, ha]
      rcases follows_blr (t := { h.top with rest := [.br inst.branch_not_taken_pc] }) hr hr.fn
        rfl hnot with ⟨he, h', hcontrol, hf⟩ | ⟨he, hcontrol⟩
      · rw [if_pos he]
        exact .of_step (hstep.trans hcontrol) hf
      · rw [if_neg he]
        exact .of_stop (hstep.trans hcontrol)
  | indirectJump =>
      simp only [Instruction.connection, hc] at hrest
      obtain ⟨addr, ha⟩ := Option.ne_none_iff_exists'.mp (haddr (by simp [hc, Category.isIndirect]))
      simp only [Position.next, hc, ha, List.contains_iff_mem]
      exact follows_br hr ⟨x.pc, hm, inst, hfate, hc⟩ hrest ha
  | conditionalIndirectJump | conditionalIndirectFunctionCall | conditionalDirectFunctionCall
  | conditionalFunctionReturn | conditionalAsyncHyperCall =>
      simp [hc, Category.foreign] at hforeign

end Pieces

/-! ### The code of an instruction -/

/-- The host behind the code of an instruction and the patch, before `rest`. -/
def Host.behind (m : TraceManager) (code : InstCode G) (h : Host G) (patched : Bool)
    (rest : List Piece) (state : G) (branch_taken : Bool) : Host G :=
  { h with
    top := { h.top with
      rest
      branch_taken
      indirect_addr := code.indirectAddr (m.loads h.top.vma) patched h.state state }
    state := code.behindPatch patched state }

/-- The address of an indirect branch comes from a load of the instruction, or from that of
the patch. -/
theorem indirectAddr_ne_none {code : InstCode G} {loads : List String} {patched : Bool}
    {before after : G} (h : patched = true ∨ (findIndirectBrAddress loads).isSome = true) :
    code.indirectAddr loads patched before after ≠ none := by
  rcases h with hp | hp
  · simp [InstCode.indirectAddr, hp]
  · obtain ⟨name, hname⟩ := Option.isSome_iff_exists.mp hp
    unfold InstCode.indirectAddr
    split
    · simp [hname]
    · simp [hname]

/-- The code of an instruction is run, and then the patch. -/
theorem follows_inst {im : LiftedImage m} {code : InstCode G} {h : Host G} {patched : Bool}
    {rest : List Piece} {state : G} {branch_taken : Bool} {y : Position G ⊕ Ending G}
    (hrest : h.top.rest = .inst :: ((if patched then [.temp_patch_f_flags] else []) ++ rest))
    (hexec : code.exec h.top.fn h.top.vma h.state = some (state, branch_taken))
    (hf : Follows (Matches im) (hostStep im code)
      (h.behind m code patched rest state branch_taken) y) :
    ∃ h', hostStep im code h = .inl h' ∧ Follows (Matches im) (hostStep im code) h' y := by
  have hstep : hostStep im code h = .inl { h with
      top := { h.top with
        rest := (if patched then [.temp_patch_f_flags] else []) ++ rest
        branch_taken
        indirect_addr := (findIndirectBrAddress (m.loads h.top.vma)).map (code.read h.state) }
      state } := by
    simp only [hostStep, hrest, hexec]
  refine ⟨_, hstep, ?_⟩
  cases patched with
  | false => exact hf
  | true =>
      refine .of_step ?_ hf
      rfl

/-! ### The simulation -/

/-- **The lifted program does what the instruction machine does**: the host takes one or
more steps for an instruction, and ends the run in the same way. -/
theorem simulates (im : LiftedImage m) (code : InstCode G) :
    Simulates (Matches im) (instStep im code) (hostStep im code) := by
  refine .of_follows fun x h hx => ?_
  obtain ⟨e, he, hblock⟩ := im.block_of_member hx.entry hx.member
  have hrest : h.top.rest = e.block := hx.rest.trans hblock
  -- no bytes: `__remill_missing_block` returns, and so does the function
  by_cases hbytes : m.readInstructionBytes x.pc = []
  · refine .inl ?_
    simp only [liftInst, if_neg hx.settled, if_pos hbytes] at he
    cases he
    rw [instStep, if_pos hbytes]
    refine ⟨{ h with top := { h.top with rest := [.ret] } }, ?_,
      follows_leave hx.stack rfl rfl hx.state hx.runtime rfl⟩
    simp only [hostStep, hrest, Host.call]
  rcases harch : m.arch x.pc (m.readInstructionBytes x.pc) with - | l
  · simp only [liftInst, if_neg hx.settled, if_neg hbytes, harch] at he
    cases he
  obtain ⟨hpieces, hharm⟩ := block_of_inst hx.settled hbytes harch he
  rw [hpieces] at hrest
  rcases hexec : code.exec x.fn x.pc x.state with - | ⟨state, branch_taken⟩
  · -- the code of the instruction ends the run
    refine .inr ⟨.trap, ?_, ?_⟩
    · simp only [instStep, if_neg hbytes, harch, hexec]
    · simp only [hostStep, hrest, hx.fn, hx.vma, hx.state, hexec]
  refine .inl (follows_inst hrest (by rw [hx.fn, hx.vma, hx.state, hexec]) ?_)
  have hloads : m.loads h.top.vma = l.loads := by
    simp only [TraceManager.loads, hx.vma, harch, Option.map_some, Option.getD_some]
  simp only [instStep, if_neg hbytes, harch, hexec]
  by_cases hl : l.lifted = true
  · have hfate : fate m x.fn x.pc = .runs l.inst := by
      simp only [fate, if_neg hx.settled, if_neg hbytes, harch, if_pos hl]
    obtain ⟨hforeign, hind⟩ := hharm hl
    rw [if_pos hl, if_pos hl, ← hloads, ← hx.state]
    refine follows_next ⟨hx.fn, hx.entry, rfl, hx.stack, hx.runtime⟩ hfate hx.member hforeign
      (fun hc => ?_) rfl
    change code.indirectAddr (m.loads h.top.vma) _ _ _ ≠ none
    rw [hloads]
    exact indirectAddr_ne_none (hind hc)
  · rw [if_neg hl, if_neg hl]
    refine .of_stop ?_
    simp only [hostStep, Host.behind, Host.call]

/-! ### Whole runs -/

variable {im : LiftedImage m} {code : InstCode G} {x : Position G} {h : Host G} {f : Addr}

/-- The program and the host start together. -/
theorem matches_start (hf : m.isFunctionEntry f = true) (state : G) :
    Matches im (.start f state) (im.start f state) :=
  ⟨⟨⟨rfl, hf, rfl, .nil, LiftedProgram.branchInv_main⟩, rfl, rfl, .entry⟩, fun h => h.1 rfl⟩

/-- A return is not malformed. -/
theorem leave_ne_malformed (x : Position G) : x.leave m ≠ .inr .malformed := by
  unfold Position.leave
  split
  · simp
  · simp

/-- No instruction of a category of the architecture is malformed. -/
theorem next_ne_malformed {inst : Instruction} {branch_taken : Bool} {addr : Option Addr}
    (hforeign : inst.category.foreign = false)
    (haddr : inst.category.isIndirect = true → addr ≠ none) :
    x.next im inst branch_taken addr ≠ .inr .malformed := by
  have hleave := leave_ne_malformed (m := m) x
  unfold Position.next
  cases hc : inst.category <;>
    simp only [hc, Category.foreign, Category.isIndirect, Bool.true_eq_false] at hforeign haddr ⊢
  case indirectJump | indirectFunctionCall =>
    obtain ⟨t, ht⟩ := Option.ne_none_iff_exists'.mp (haddr trivial)
    simp only [ht]
    repeat' split
    all_goals simp
  all_goals first
    | exact hleave
    | (split <;> simp [hleave])
    | simp

/-- Every block of a lifted program ends with a terminator, and every indirect branch has
its address. -/
theorem instStep_ne_malformed (hx : Matches im x h) :
    instStep im code x ≠ .inr .malformed := by
  obtain ⟨e, he, -⟩ := im.block_of_member hx.entry hx.member
  by_cases hbytes : m.readInstructionBytes x.pc = []
  · rw [instStep, if_pos hbytes]
    exact leave_ne_malformed x
  rcases harch : m.arch x.pc (m.readInstructionBytes x.pc) with - | l
  · simp only [liftInst, if_neg hx.settled, if_neg hbytes, harch] at he
    cases he
  obtain ⟨-, hharm⟩ := block_of_inst hx.settled hbytes harch he
  simp only [instStep, if_neg hbytes, harch]
  split
  · simp
  · split
    · rename_i hl
      exact next_ne_malformed (hharm hl).1 fun hc => indirectAddr_ne_none ((hharm hl).2 hc)
    · simp

/-- **A lifted program runs as its instructions say.**  Started at a function, the host
ends as the instruction machine does, or runs forever with it; it gets to the block of every
instruction the instruction machine gets to, with the same state of the guest; and it never
runs into a block without end. -/
theorem host_runs_iff (im : LiftedImage m) (code : InstCode G)
    (hf : m.isFunctionEntry f = true) (state : G) :
    (∀ r, Halts (hostStep im code) (im.start f state) r ↔
      Halts (instStep im code) (.start f state) r) ∧
    (∀ x, Machine.Reached (instStep im code) (.start f state) x →
      ∃ h, Machine.Reached (hostStep im code) (im.start f state) h ∧ Matches im x h) ∧
    ¬ Halts (hostStep im code) (im.start f state) .malformed := by
  have hsim := simulates im code
  have hstart : Matches im (.start f state) (im.start f state) := matches_start hf state
  have hreached : ∀ x, Machine.Reached (instStep im code) (.start f state) x →
      ∃ h, Machine.Reached (hostStep im code) (im.start f state) h ∧ Matches im x h :=
    fun x hx => hsim.reached hstart hx
  refine ⟨fun r => (hsim.halts_iff hstart r).symm, hreached, fun hmal => ?_⟩
  have hinst := (hsim.halts_iff hstart _).mpr hmal
  -- the state before the stop is matched
  refine inv_of_halts (I := fun x => ∃ h, Matches im x h)
    (Q := fun r => r ≠ .malformed) ?_ ?_ ⟨_, hstart⟩ hinst rfl
  · rintro x x' ⟨h, hx⟩ hstep
    obtain ⟨h', -, hx'⟩ := hsim.step hx hstep
    exact ⟨h', hx'⟩
  · rintro x r ⟨h, hx⟩ hstop rfl
    exact instStep_ne_malformed hx hstop

/-- A state with two registers for the targets of the branches. -/
def jumpCode : InstCode (Addr × Addr) where
  exec _ _ state := some (state, false)
  read state name := if name = "X0" then state.1 else state.2
  temp_patch_f_flags := id

/-- The function is called twice, and the branch goes back to the first call. -/
theorem host_runs_iff_dispatcher : ∃ im : LiftedImage (dispatcher branchArch),
    let state : Addr × Addr := (0x1000#64, 0x100c#64)
    (∀ r, Halts (hostStep im jumpCode) (im.start 0x1000#64 state) r ↔
      Halts (instStep im jumpCode) (.start 0x1000#64 state) r) ∧
    (∀ x, Machine.Reached (instStep im jumpCode) (.start 0x1000#64 state) x →
      ∃ h, Machine.Reached (hostStep im jumpCode) (im.start 0x1000#64 state) h ∧
        Matches im x h) ∧
    ¬ Halts (hostStep im jumpCode) (im.start 0x1000#64 state) .malformed := by
  obtain ⟨im, -⟩ := exists_liftedImage (by decide) (List.Perm.refl _)
    (fun _ => isFunctionEntry_dispatcher) fun _ hf =>
      liftable_dispatcher branchArch_dispatcher (isFunctionEntry_dispatcher.mpr hf)
  exact ⟨im, host_runs_iff im jumpCode (by decide) _⟩

end Elfconv
