/-
Elfconv/Recovery/IndirectBr.lean

Indirect branches: from the tables made at lift time to the code that is reached.

For a function with `BR` the lifter emits the addresses of its blocks and their VMAs, with
`br_to_func_block` under the sentinel `UINT64_MAX`; for the program it emits the function
table, ended by a zero entry.  `main` rebuilds maps from the tables, and
`__g_get_indirectbr_block_address`, `__remill_jump` and `__remill_function_call` look
targets up in them, the last two through a static cache.

No lookup of a run that goes on changes what later lookups answer, so every execution
behaves as the first one.  `br_reaches_iff` says exactly which targets are reached.
-/
import Elfconv.Lib.Memo
import Elfconv.Lib.Run
import Elfconv.Recovery.Traces

namespace Elfconv

/-- A basic block of a lifted function, as `BlockAddress::get(func, bb)` names it. -/
inductive BlockAddress
  | lifted (fun_vma bb_vma : Addr)
  | br_to_func (fun_vma : Addr)
  deriving DecidableEq, Repr

/-- A pointer to a lifted function, named by the entry it was lifted from. -/
structure LiftedFunc where
  entry : Addr
  deriving DecidableEq, Repr

/-- The end of an array of block addresses. -/
def UINT64_MAX : Addr := 0xffffffffffffffff

/-! ### The tables -/

/-- What lifting leaves of a function: the keys of `lifted_block_map`, and whether it
contains `BR`. -/
structure LiftedFunction where
  trace_addr : Addr
  lifted_block_map : List Addr
  indirectbr_block : Bool

/-- The lifted functions, in the order they were lifted in, and their entries in the order
in which `SetLiftedFunPtrTable` meets them in a hash map. -/
structure LiftedProgram where
  functions : List LiftedFunction
  addr_fn_map : List Addr
  nodup : (functions.map LiftedFunction.trace_addr).Nodup
  perm : addr_fn_map.Perm (functions.map LiftedFunction.trace_addr)

/-- An entry of the arrays `__g_block_address_…`. -/
structure BlockAddressData where
  fn_vma : Addr
  size : Nat
  bb_addrs : List BlockAddress
  bb_addr_vmas : List Addr

/-- The arrays of a function with `BR`; the end element is `br_to_func_block`. -/
def LiftedFunction.blockAddressData (f : LiftedFunction) : BlockAddressData :=
  let bb_addrs := f.lifted_block_map.map (.lifted f.trace_addr) ++ [.br_to_func f.trace_addr]
  { fn_vma := f.trace_addr
    size := bb_addrs.length
    bb_addrs
    bb_addr_vmas := f.lifted_block_map ++ [UINT64_MAX] }

/-- The global arrays of the lifted bitcode. -/
structure Tables where
  g_fn_vmas : List Addr
  g_fn_ptr_table : List LiftedFunc
  g_block_address : List BlockAddressData

/-- What the lifter writes to the bitcode. -/
def LiftedProgram.tables (p : LiftedProgram) : Tables where
  -- `0` is the guard
  g_fn_vmas := p.addr_fn_map ++ [0]
  g_fn_ptr_table := p.addr_fn_map.map .mk
  g_block_address := (p.functions.filter (·.indirectbr_block)).map (·.blockAddressData)

/-! ### The maps of the runtime -/

/-- `RuntimeManager` and the static caches of the two intrinsics. -/
structure BranchRuntime where
  addr_fn_map : Memo.PtrMap Addr LiftedFunc
  addr_block_addrs_map : Addr → Option (Addr → Option BlockAddress)
  vma_cache : Memo.PtrMap Addr LiftedFunc
  vma_cache_2 : Memo.PtrMap Addr LiftedFunc

/-- The loop `for (i = 0; __g_fn_vmas[i] && __g_fn_ptr_table[i]; i++)`. -/
def registered : List Addr → List LiftedFunc → List (Addr × Option LiftedFunc)
  | vma :: vmas, fn :: fns => if vma = 0 then [] else (vma, some fn) :: registered vmas fns
  | _, _ => []

/-- The loop over the blocks of one function. -/
def BlockAddressData.vma_bb_map (d : BlockAddressData) : Addr → Option BlockAddress :=
  Memo.ofPairs ((d.bb_addr_vmas.zip d.bb_addrs).take d.size)

/-- The maps `main` builds. -/
def Tables.main (t : Tables) : BranchRuntime where
  addr_fn_map := Memo.ofPairs (registered t.g_fn_vmas t.g_fn_ptr_table)
  addr_block_addrs_map := Memo.ofPairs (t.g_block_address.map fun d => (d.fn_vma, d.vma_bb_map))
  vma_cache := fun _ => none
  vma_cache_2 := fun _ => none

/-! ### The lookups -/

/-- The calls of `elfconv_runtime_error`. -/
inductive BranchError
  /-- "is not the vma of the block address" -/
  | block_address
  /-- "is not the entry address of any lifted function" -/
  | fun_vma
  /-- "is not included in the lifted function pointer table" (BLR) or (BR) -/
  | blr | br
  /-- a jump to the null pointer -/
  | null
  deriving DecidableEq, Repr

/-- `__g_get_indirectbr_block_address`; the map it reads from is a copy. -/
def g_get_indirectbr_block_address (rt : BranchRuntime) (fun_vma bb_vma : Addr) :
    Except BranchError (Option BlockAddress) :=
  match rt.addr_block_addrs_map fun_vma with
  | some vma_bb_map =>
      match vma_bb_map bb_vma with
      | some block => .ok (some block)
      | none =>
          if (rt.addr_fn_map fun_vma).isSome then .ok (vma_bb_map UINT64_MAX)
          else .error .block_address
  | none => .error .fun_vma

variable {S : Type}

/-- A call of a lifted function, with its arguments. -/
structure LiftedCall (S : Type) where
  fn : LiftedFunc
  state : S
  fn_vma : Addr
  deriving DecidableEq

/-- `__remill_function_call`. -/
def remill_function_call (rt : BranchRuntime) (state : S) (fn_vma : Addr) :
    Except BranchError (LiftedCall S × BranchRuntime) :=
  let jmp := Memo.lookup rt.vma_cache rt.addr_fn_map fn_vma
  match jmp.found with
  | some jmp_fn =>
      .ok (⟨jmp_fn, state, fn_vma⟩,
        { rt with vma_cache := jmp.memo, addr_fn_map := jmp.table })
  | none => .error .blr

/-- `__remill_jump`. -/
def remill_jump (rt : BranchRuntime) (state : S) (fn_vma : Addr) :
    Except BranchError (LiftedCall S × BranchRuntime) :=
  let jmp := Memo.lookup rt.vma_cache_2 rt.addr_fn_map fn_vma
  match jmp.found with
  | some jmp_fn =>
      .ok (⟨jmp_fn, state, fn_vma⟩,
        { rt with vma_cache_2 := jmp.memo, addr_fn_map := jmp.table })
  | none => .error .br

/-- Where control goes. -/
inductive Control (S : Type)
  /-- on in a block of the function -/
  | block (target : BlockAddress)
  /-- into a function, and on behind the call -/
  | call (c : LiftedCall S)
  /-- into a function, and then out of this one -/
  | tailCall (c : LiftedCall S)
  deriving DecidableEq

/-- An execution of a branch through a register. -/
inductive Branch (S : Type)
  | br (f : LiftedFunction) (state : S) (target : Addr)
  | blr (state : S) (target : Addr)

/-- The `indirectbr_block` of `f`, and the block of `BLR`. -/
def BranchRuntime.exec (rt : BranchRuntime) :
    Branch S → Except BranchError (Control S × BranchRuntime)
  | .br f state target => do
      match ← g_get_indirectbr_block_address rt f.trace_addr target with
      | some (.br_to_func _) =>
          -- `br_to_func_block` calls `__remill_jump` and returns
          let (c, rt) ← remill_jump rt state target
          .ok (.tailCall c, rt)
      | some block => .ok (.block block, rt)
      | none => .error .null
  | .blr state target => do
      let (c, rt) ← remill_function_call rt state target
      .ok (.call c, rt)

/-- Where control goes; `none` when the run stops with an error. -/
def BranchRuntime.outcome (rt : BranchRuntime) (b : Branch S) : Option (Control S) :=
  match rt.exec b with
  | .ok (c, _) => some c
  | .error _ => none

/-! ### What the branches should do -/

namespace LiftedProgram

variable (p : LiftedProgram)

/-- The function with the `BR` is one of the program. -/
def Has : Branch S → Prop
  | .br f _ _ => f ∈ p.functions ∧ f.indirectbr_block = true
  | .blr _ _ => True

/-- The step relation: an execution after which the run goes on. -/
def Step (rt : BranchRuntime) (b : Branch S) (rt' : BranchRuntime) : Prop :=
  p.Has b ∧ ∃ c, rt.exec b = .ok (c, rt')

/-- Where a `BR` should go: to its block, else to its function, else nowhere. -/
def target (f : LiftedFunction) (state : S) (t : Addr) : Option (Control S) :=
  if f.lifted_block_map.contains t then some (.block (.lifted f.trace_addr t))
  else if (p.functions.map LiftedFunction.trace_addr).contains t then
    some (.tailCall ⟨⟨t⟩, state, t⟩)
  else none

/-- The entries that `main` registers: those before a zero entry. -/
def entries : List Addr := p.addr_fn_map.takeWhile (· ≠ 0)

/-- The condition under which a `BR` gets where it should. -/
def Reaches (f : LiftedFunction) (t : Addr) : Prop :=
  (t ∈ f.lifted_block_map → t ≠ UINT64_MAX) ∧
    (t ∉ f.lifted_block_map → t ∈ p.functions.map LiftedFunction.trace_addr →
      t ∈ p.entries ∧ (f.trace_addr ∈ p.entries ∨ t = UINT64_MAX))

end LiftedProgram

/-! ### The maps are the tables -/

/-- The loop over the table stops at the first zero. -/
theorem registered_eq (vmas : List Addr) :
    registered (vmas ++ [0]) (vmas.map .mk) =
      (vmas.takeWhile (· ≠ 0)).map fun vma => (vma, some ⟨vma⟩) := by
  induction vmas with
  | nil => rfl
  | cons vma vmas ih =>
      rw [List.cons_append, List.map_cons, registered, ih]
      by_cases h : vma = 0
      · rw [if_pos h, List.takeWhile_cons_of_neg (by simpa using h)]
        rfl
      · rw [if_neg h, List.takeWhile_cons_of_pos (by simpa using h)]
        rfl

namespace LiftedProgram

variable {p : LiftedProgram} {f : LiftedFunction} {state : S} {t : Addr}

/-- The function table holds the entries before the zero. -/
theorem addr_fn_map_main (t : Addr) :
    p.tables.main.addr_fn_map t = if t ∈ p.entries then some (some ⟨t⟩) else none := by
  have hgraph := Memo.ofPairs_graph (fun vma => some (LiftedFunc.mk vma)) p.entries
    (show t ∉ [].map Prod.fst from List.not_mem_nil)
  rw [List.append_nil] at hgraph
  rw [← hgraph]
  exact congrArg (fun pairs => Memo.ofPairs pairs t) (registered_eq p.addr_fn_map)

/-- What a lookup in the function table finds. -/
theorem deref_addr_fn_map (t : Addr) :
    Memo.deref p.tables.main.addr_fn_map t = if t ∈ p.entries then some ⟨t⟩ else none := by
  rw [Memo.deref, addr_fn_map_main]
  split
  · rfl
  · rfl

/-- The table of a function: its blocks, and the sentinel. -/
theorem zip_blockAddressData (f : LiftedFunction) :
    (f.blockAddressData.bb_addr_vmas.zip f.blockAddressData.bb_addrs).take
      f.blockAddressData.size =
    f.lifted_block_map.map (fun vma => (vma, BlockAddress.lifted f.trace_addr vma)) ++
      [(UINT64_MAX, .br_to_func f.trace_addr)] := by
  have hzip : f.lifted_block_map.zip (f.lifted_block_map.map (.lifted f.trace_addr)) =
      f.lifted_block_map.map fun vma => (vma, BlockAddress.lifted f.trace_addr vma) := by
    simpa using List.zip_map' (f := id) (g := BlockAddress.lifted f.trace_addr)
      (l := f.lifted_block_map)
  rw [LiftedFunction.blockAddressData, List.take_of_length_le (by simp),
    List.zip_append (by simp), hzip]
  rfl

/-- The sentinel comes last, so it overrides a block at `UINT64_MAX`. -/
theorem vma_bb_map_eq (f : LiftedFunction) (t : Addr) :
    f.blockAddressData.vma_bb_map t =
      if t = UINT64_MAX then some (.br_to_func f.trace_addr)
      else if t ∈ f.lifted_block_map then some (.lifted f.trace_addr t) else none := by
  rw [BlockAddressData.vma_bb_map, zip_blockAddressData]
  by_cases h : t = UINT64_MAX
  · rw [if_pos h, h]
    exact Memo.ofPairs_append_cons (by simp)
  · rw [if_neg h]
    exact Memo.ofPairs_graph _ _ (by simpa using h)

/-- The table of each function with an indirect branch is registered. -/
theorem addr_block_addrs_map_main (hf : f ∈ p.functions) (hbr : f.indirectbr_block = true) :
    p.tables.main.addr_block_addrs_map f.trace_addr = some f.blockAddressData.vma_bb_map := by
  have hmem : f ∈ p.functions.filter (·.indirectbr_block) := List.mem_filter.mpr ⟨hf, hbr⟩
  obtain ⟨before, after, hsplit⟩ := List.append_of_mem hmem
  have hnodup : ((p.functions.filter (·.indirectbr_block)).map LiftedFunction.trace_addr).Nodup :=
    (List.filter_sublist.map _).nodup p.nodup
  rw [hsplit, List.map_append, List.map_cons, List.nodup_append] at hnodup
  have hafter : f.trace_addr ∉ after.map LiftedFunction.trace_addr :=
    (List.nodup_cons.mp hnodup.2.1).1
  change Memo.ofPairs _ _ = _
  rw [tables, hsplit]
  simp only [List.map_append, List.map_cons, List.map_map]
  refine Memo.ofPairs_append_cons ?_
  rw [List.map_map]
  exact hafter

/-! ### Runs -/

/-- What no execution changes, and what keeps the caches harmless. -/
structure BranchInv (p : LiftedProgram) (rt : BranchRuntime) : Prop where
  addr_fn_map : rt.addr_fn_map = p.tables.main.addr_fn_map
  addr_block_addrs_map : rt.addr_block_addrs_map = p.tables.main.addr_block_addrs_map
  vma_cache : Memo.Faithful rt.vma_cache rt.addr_fn_map
  vma_cache_2 : Memo.Faithful rt.vma_cache_2 rt.addr_fn_map

/-- The tables are right when `main` has read them. -/
theorem branchInv_main : BranchInv p p.tables.main where
  addr_fn_map := rfl
  addr_block_addrs_map := rfl
  vma_cache := Memo.faithful_empty
  vma_cache_2 := Memo.faithful_empty

variable {rt rt' : BranchRuntime}

/-- `__remill_jump` calls a registered function, or stops. -/
theorem remill_jump_spec (hi : BranchInv p rt) (state : S) (t : Addr) :
    (t ∈ p.entries ∧ ∃ rt', remill_jump rt state t = .ok (⟨⟨t⟩, state, t⟩, rt') ∧
      BranchInv p rt') ∨
    (t ∉ p.entries ∧ remill_jump rt state t = .error .br) := by
  have hfound := Memo.found_lookup hi.vma_cache_2 t
  rw [hi.addr_fn_map, deref_addr_fn_map, ← hi.addr_fn_map] at hfound
  by_cases ht : t ∈ p.entries
  · rw [if_pos ht] at hfound
    have htable := Memo.table_lookup_of_found hfound
    have hmemo := Memo.faithful_lookup hi.vma_cache_2 t
    rw [htable] at hmemo
    refine .inl ⟨ht,
      { rt with vma_cache_2 := (Memo.lookup rt.vma_cache_2 rt.addr_fn_map t).memo }, ?_,
      ⟨hi.addr_fn_map, hi.addr_block_addrs_map, hi.vma_cache, hmemo⟩⟩
    simp only [remill_jump, hfound, htable]
  · rw [if_neg ht] at hfound
    exact .inr ⟨ht, by simp only [remill_jump, hfound]⟩

/-- `__remill_function_call` calls a registered function, or stops. -/
theorem remill_function_call_spec (hi : BranchInv p rt) (state : S) (t : Addr) :
    (t ∈ p.entries ∧ ∃ rt', remill_function_call rt state t = .ok (⟨⟨t⟩, state, t⟩, rt') ∧
      BranchInv p rt') ∨
    (t ∉ p.entries ∧ remill_function_call rt state t = .error .blr) := by
  have hfound := Memo.found_lookup hi.vma_cache t
  rw [hi.addr_fn_map, deref_addr_fn_map, ← hi.addr_fn_map] at hfound
  by_cases ht : t ∈ p.entries
  · rw [if_pos ht] at hfound
    have htable := Memo.table_lookup_of_found hfound
    have hmemo := Memo.faithful_lookup hi.vma_cache t
    rw [htable] at hmemo
    refine .inl ⟨ht, { rt with vma_cache := (Memo.lookup rt.vma_cache rt.addr_fn_map t).memo }, ?_,
      ⟨hi.addr_fn_map, hi.addr_block_addrs_map, hmemo, hi.vma_cache_2⟩⟩
    simp only [remill_function_call, hfound, htable]
  · rw [if_neg ht] at hfound
    exact .inr ⟨ht, by simp only [remill_function_call, hfound]⟩

/-- The block a `BR` gets, or the error, by the kind of its target. -/
theorem get_block_spec (hi : BranchInv p rt) (hf : f ∈ p.functions)
    (hbr : f.indirectbr_block = true) :
    g_get_indirectbr_block_address rt f.trace_addr t =
      if t = UINT64_MAX then .ok (some (.br_to_func f.trace_addr))
      else if t ∈ f.lifted_block_map then .ok (some (.lifted f.trace_addr t))
      else if f.trace_addr ∈ p.entries then .ok (some (.br_to_func f.trace_addr))
      else .error .block_address := by
  simp only [g_get_indirectbr_block_address, hi.addr_block_addrs_map,
    addr_block_addrs_map_main hf hbr, vma_bb_map_eq, hi.addr_fn_map, addr_fn_map_main]
  by_cases hmax : t = UINT64_MAX
  · simp only [if_pos hmax]
  · simp only [if_neg hmax]
    by_cases hb : t ∈ f.lifted_block_map
    · simp only [if_pos hb]
    · simp only [if_neg hb]
      by_cases he : f.trace_addr ∈ p.entries
      · simp [he]
      · simp [he]

/-- Where the tables alone send a branch. -/
def reached (p : LiftedProgram) : Branch S → Option (Control S)
  | .br f state t =>
      if t ≠ UINT64_MAX ∧ f.lifted_block_map.contains t then
        some (.block (.lifted f.trace_addr t))
      else if p.entries.contains t ∧ (t = UINT64_MAX ∨ p.entries.contains f.trace_addr) then
        some (.tailCall ⟨⟨t⟩, state, t⟩)
      else none
  | .blr state t => if p.entries.contains t then some (.call ⟨⟨t⟩, state, t⟩) else none

/-- The way through `br_to_func_block`. -/
theorem exec_br_to_func (hi : BranchInv p rt) (state : S) {g : Addr}
    (hget : g_get_indirectbr_block_address rt f.trace_addr t = .ok (some (.br_to_func g))) :
    (t ∈ p.entries ∧ ∃ rt', rt.exec (.br f state t) = .ok (.tailCall ⟨⟨t⟩, state, t⟩, rt') ∧
      BranchInv p rt') ∨
    (t ∉ p.entries ∧ rt.exec (.br f state t) = .error .br) := by
  rcases remill_jump_spec hi state t with ⟨ht, rt', e, hi'⟩ | ⟨ht, e⟩
  · refine .inl ⟨ht, rt', ?_, hi'⟩
    simp only [BranchRuntime.exec, hget, bind, Except.bind, e]
  · refine .inr ⟨ht, ?_⟩
    simp only [BranchRuntime.exec, hget, bind, Except.bind, e]

/-- **Every execution goes where the tables alone send it**, and keeps the invariant. -/
theorem exec_spec (hi : BranchInv p rt) {b : Branch S} (hb : p.Has b) :
    (∃ c rt', p.reached b = some c ∧ rt.exec b = .ok (c, rt') ∧ BranchInv p rt') ∨
    (p.reached b = none ∧ ∃ e, rt.exec b = .error e) := by
  cases b with
  | blr state t =>
      rcases remill_function_call_spec hi state t with
        ⟨ht, rt', e, hi'⟩ | ⟨ht, e⟩
      · refine .inl ⟨_, rt', if_pos (by simpa using ht), ?_, hi'⟩
        simp only [BranchRuntime.exec, bind, Except.bind, e]
      · refine .inr ⟨if_neg (by simpa using ht), .blr, ?_⟩
        simp only [BranchRuntime.exec, bind, Except.bind, e]
  | br f state t =>
      -- the cases are those of the block table: the sentinel, a block, a function, nothing
      have hget := get_block_spec (t := t) hi hb.1 hb.2
      by_cases hmax : t = UINT64_MAX
      · rw [if_pos hmax] at hget
        rcases exec_br_to_func hi state hget with ⟨ht, rt', e, hi'⟩ | ⟨ht, e⟩
        · refine .inl ⟨_, rt', ?_, e, hi'⟩
          rw [reached, if_neg (fun h => h.1 hmax), if_pos ⟨by simpa using ht, .inl hmax⟩]
        · refine .inr ⟨?_, _, e⟩
          rw [reached, if_neg (fun h => h.1 hmax), if_neg (fun h => ht (by simpa using h.1))]
      rw [if_neg hmax] at hget
      by_cases hblock : t ∈ f.lifted_block_map
      · rw [if_pos hblock] at hget
        refine .inl ⟨_, rt, if_pos ⟨hmax, by simpa using hblock⟩, ?_, hi⟩
        simp only [BranchRuntime.exec, hget, bind, Except.bind]
      rw [if_neg hblock] at hget
      by_cases hf : f.trace_addr ∈ p.entries
      · rw [if_pos hf] at hget
        rcases exec_br_to_func hi state hget with ⟨ht, rt', e, hi'⟩ | ⟨ht, e⟩
        · refine .inl ⟨_, rt', ?_, e, hi'⟩
          simp [reached, hblock, ht, hf]
        · refine .inr ⟨?_, _, e⟩
          simp [reached, hblock, ht]
      · rw [if_neg hf] at hget
        refine .inr ⟨?_, .block_address, ?_⟩
        · simp [reached, hblock, hmax, hf]
        · simp only [BranchRuntime.exec, hget, bind, Except.bind]

/-- A branch ends as it does without a history. -/
theorem outcome_eq (hi : BranchInv p rt) {b : Branch S} (hb : p.Has b) :
    rt.outcome b = p.reached b := by
  rcases exec_spec hi hb with ⟨c, rt', hr, he, -⟩ | ⟨hr, e, he⟩
  · simp only [BranchRuntime.outcome, he, hr]
  · simp only [BranchRuntime.outcome, he, hr]

/-- An execution after which the run goes on keeps the invariant. -/
theorem branchInv_step {b : Branch S} (hi : BranchInv p rt) (h : p.Step rt b rt') :
    BranchInv p rt' := by
  obtain ⟨hb, c, h⟩ := h
  rcases exec_spec hi hb with ⟨c', rt₁, -, he, hi'⟩ | ⟨-, e, he⟩
  · rw [he] at h
    cases h
    exact hi'
  · rw [he] at h
    cases h

/-- The tables stay right through every history, by induction on it. -/
theorem branchInv_final {history : List (Branch S × BranchRuntime)}
    (h : Run.IsRun p.Step p.tables.main history) :
    BranchInv p (Run.final p.tables.main history) :=
  Run.final_of_throughout
    (Run.throughout_of_step (fun _ _ _ hi hs => branchInv_step hi hs) branchInv_main h)

/-! ### Indirect branches reach the right code -/

/-- Where the tables lead a branch to its target. -/
theorem reached_eq_target_iff :
    p.reached (.br f state t) = p.target f state t ↔ p.Reaches f t := by
  have hsub : t ∈ p.entries → t ∈ p.functions.map LiftedFunction.trace_addr := fun h =>
    p.perm.subset (List.takeWhile_sublist _ |>.subset h)
  -- a block of the function, then another function, then neither
  by_cases hblock : t ∈ f.lifted_block_map
  · have htarget : p.target f state t = some (.block (.lifted f.trace_addr t)) := by
      simp [target, hblock]
    rw [htarget, Reaches, iff_true_intro hblock, true_imp_iff, not_true, false_imp_iff, and_true]
    by_cases hmax : t = UINT64_MAX
    · -- the sentinel hides the block
      rw [reached, if_neg (fun h => h.1 hmax)]
      split
      · simp [hmax]
      · simp [hmax]
    · simp [reached, hblock, hmax]
  · have hnot : ¬ (t ≠ UINT64_MAX ∧ f.lifted_block_map.contains t = true) := by simp [hblock]
    rw [reached, if_neg hnot, Reaches]
    by_cases hfn : t ∈ p.functions.map LiftedFunction.trace_addr
    · have htarget : p.target f state t = some (.tailCall ⟨⟨t⟩, state, t⟩) := by
        simp only [target, List.contains_iff_mem, if_neg hblock, if_pos hfn]
      rw [htarget]
      split
      · rename_i h
        simp only [List.contains_iff_mem] at h
        exact ⟨fun _ => ⟨fun hb => absurd hb hblock, fun _ _ => ⟨h.1, h.2.symm⟩⟩, fun _ => rfl⟩
      · rename_i h
        simp only [List.contains_iff_mem] at h
        refine ⟨fun e => (Option.some_ne_none _ e.symm).elim, fun hr => ?_⟩
        exact absurd ⟨(hr.2 hblock hfn).1, (hr.2 hblock hfn).2.symm⟩ h
    · have htarget : p.target f state t = none := by
        simp only [target, List.contains_iff_mem, if_neg hblock, if_neg hfn]
      rw [htarget, if_neg (fun h => hfn (hsub (List.contains_iff_mem.mp h.1)))]
      exact ⟨fun _ => ⟨fun hb => absurd hb hblock, fun _ h => absurd h hfn⟩, fun _ => rfl⟩

/-- **A `BR` reaches the right code exactly under `Reaches`**, after any history of
branches; a `BLR` calls its function or stops with an error; and no history makes a
branch behave differently. -/
theorem br_reaches_iff (history : List (Branch S × BranchRuntime))
    (h : Run.IsRun p.Step p.tables.main history) (hf : f ∈ p.functions)
    (hbr : f.indirectbr_block = true) (state : S) (t : Addr) :
    ((Run.final p.tables.main history).outcome (.br f state t) = p.target f state t ∧
      (∀ (state : S) (u : Addr),
        (Run.final p.tables.main history).outcome (.blr state u) = none ∨
        u ∈ p.functions.map LiftedFunction.trace_addr ∧
          (Run.final p.tables.main history).outcome (.blr state u) =
            some (.call ⟨⟨u⟩, state, u⟩)) ∧
      ∀ (history' : List (Branch S × BranchRuntime)) (b : Branch S),
        Run.IsRun p.Step p.tables.main history' → p.Has b →
          (Run.final p.tables.main history').outcome b =
            (Run.final p.tables.main history).outcome b) ↔
    p.Reaches f t := by
  have hi := branchInv_final h
  have hb : p.Has (.br f state t) := ⟨hf, hbr⟩
  rw [outcome_eq hi hb, reached_eq_target_iff]
  refine ⟨fun h => h.1, fun hr => ⟨hr, fun state u => ?_, fun history' b h' hb => ?_⟩⟩
  · rw [outcome_eq hi (b := .blr state u) trivial, reached]
    split
    · rename_i hu
      have hentry : u ∈ p.entries := List.contains_iff_mem.mp hu
      exact .inr ⟨p.perm.subset (List.takeWhile_sublist _ |>.subset hentry), rfl⟩
    · exact .inl rfl
  · rw [outcome_eq (branchInv_final h') hb, outcome_eq hi hb]

/-! ### Where a function starts at address 0 -/

/-- A function with a `BR` at `0x1000`, another function, and a function at 0. -/
def atZero : LiftedProgram where
  functions := [⟨0, [0], false⟩, ⟨0x1000, [0x1000], true⟩, ⟨0x2000, [0x2000], false⟩]
  addr_fn_map := [0x2000, 0x1000, 0]
  nodup := by decide
  perm := by decide

/-- The runtime after an execution that goes on. -/
def nextRuntime (rt : BranchRuntime) (b : Branch S) : BranchRuntime :=
  match rt.exec b with
  | .ok (_, rt') => rt'
  | .error _ => rt

/-- A `BR` to the block at `0x1000`, and a `BLR` to the function at `0x2000`. -/
def atZeroHistory : List (Branch Unit × BranchRuntime) :=
  let br := .br ⟨0x1000, [0x1000], true⟩ () 0x1000
  let blr := .blr () 0x2000
  [(br, nextRuntime atZero.tables.main br),
    (blr, nextRuntime (nextRuntime atZero.tables.main br) blr)]

/-- A `BR` to the entry of another function calls it, also after other branches. -/
theorem br_reaches_iff_call :
    (Run.final atZero.tables.main atZeroHistory).outcome
      (.br ⟨0x1000, [0x1000], true⟩ () 0x2000) = some (.tailCall ⟨⟨0x2000⟩, (), 0x2000⟩) :=
  ((br_reaches_iff (p := atZero) atZeroHistory
    ⟨⟨⟨by simp [atZero], rfl⟩, _, rfl⟩, ⟨trivial, _, rfl⟩, trivial⟩ (by simp [atZero]) rfl ()
      0x2000).mpr ⟨by decide, by decide⟩).1

/-- The entry 0 ends the function table: a `BR` to it stops the run. -/
theorem br_not_reaches :
    atZero.tables.main.outcome (.br ⟨0x1000, [0x1000], true⟩ () 0) ≠
      atZero.target ⟨0x1000, [0x1000], true⟩ () 0 := by
  decide

end LiftedProgram

/-! ### The blocks are the recovered ones -/

/-- What the lifting of the function at `f` leaves for the tables. -/
def Lifting.function (s : Lifting) (f : Addr) : LiftedFunction where
  trace_addr := f
  lifted_block_map := s.bb_reg_info_node_map
  indirectbr_block := s.indirectbr_block

/-- In a recovered function, a `BR` to a member goes to the block of the member. -/
theorem br_to_member {S : Type} {p : LiftedProgram} {m : TraceManager} {f t : Addr}
    {s : Lifting} {history : List (Branch S × BranchRuntime)} (hrec : Recovered m f s)
    (hp : s.function f ∈ p.functions) (hbr : ∃ a, Member m f a ∧ IndirectJump m f a)
    (ht : Member m f t) (hmax : t ≠ UINT64_MAX)
    (h : Run.IsRun p.Step p.tables.main history) (state : S) :
    (Run.final p.tables.main history).outcome (.br (s.function f) state t) =
      some (.block (.lifted f t)) := by
  have hb : p.Has (.br (s.function f) state t) := ⟨hp, hrec.indirect.mpr hbr⟩
  have hblock : t ∈ (s.function f).lifted_block_map := (hrec.lifted t).mpr ht
  rw [LiftedProgram.outcome_eq (LiftedProgram.branchInv_final h) hb]
  exact if_pos ⟨hmax, List.contains_iff_mem.mpr hblock⟩

end Elfconv
