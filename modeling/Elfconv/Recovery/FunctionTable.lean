/-
Elfconv/Recovery/FunctionTable.lean

The function table of `SetELFData`.

The symbols are sorted by descending address.  An outer loop looks up the section of the
next symbol; an inner loop goes down in that section, one symbol after the other, each
function ending where the one above it starts.  The inner loop is bounded by the start of
the section, not by the list or by the section of the next symbol, so it leaves the
section or the list when no symbol is at the start of the section.
-/
import Elfconv.Lib.Machine
import Mathlib.Algebra.Group.Nat.Defs
import Mathlib.Data.List.Pairwise
import Mathlib.Data.List.Sort
import Mathlib.Logic.Function.Basic

namespace Elfconv

/-! ### The object file -/

/-- `ELFObject::FuncEntry` -/
structure FuncEntry where
  entry : Nat
  func_name : String

/-- `ELFObject::CodeSection`; it ends inside the address space. -/
structure CodeSection where
  sec_name : String
  vma : Nat
  bytes : List UInt8
  size : Nat
  length_bytes : bytes.length = size
  in_range : vma + size < 2 ^ 64

namespace CodeSection

/-- `vma <= addr && addr < vma + size` -/
def Contains (sec : CodeSection) (addr : Nat) : Prop :=
  sec.vma ≤ addr ∧ addr < sec.vma + sec.size

instance (sec : CodeSection) (addr : Nat) : Decidable (sec.Contains addr) :=
  inferInstanceAs (Decidable (_ ∧ _))

/-- `bytes[addr - sec_addr]`; `none` is a read outside the bytes of the section. -/
def byteAt (sec : CodeSection) (addr : Nat) : Option UInt8 :=
  if sec.vma ≤ addr then sec.bytes[addr - sec.vma]? else none

end CodeSection

/-- The part of the object file that `SetELFData` reads: disjoint code sections, and
function symbols that lie in them. -/
structure ELFObject where
  entry : Nat
  code_sections : List CodeSection
  func_entrys : List FuncEntry
  disjoint : code_sections.Pairwise fun sec sec' => ∀ a, sec.Contains a → ¬ sec'.Contains a
  lies : ∀ e ∈ func_entrys, ∃ sec ∈ code_sections, sec.Contains e.entry

/-! ### The table -/

/-- `DisasmFunc`: a function by its range. -/
structure DisasmFunc where
  func_name : String
  vma : Nat
  func_size : Nat

/-- The address is in the range of the function. -/
def DisasmFunc.Contains (f : DisasmFunc) (addr : Nat) : Prop :=
  f.vma ≤ addr ∧ addr < f.vma + f.func_size

/-- `AArch64TraceManager`: the bytes and the functions that are lifted. -/
structure AArch64TraceManager where
  memory : Nat → Option UInt8
  disasm_funcs : Nat → Option DisasmFunc
  entry_func_lifted_name : String
  io_file_xsputn_vma : Nat
  unique_i64 : Nat

namespace AArch64TraceManager

/-- The manager before `SetELFData`. -/
def init : AArch64TraceManager where
  memory _ := none
  disasm_funcs _ := none
  entry_func_lifted_name := ""
  io_file_xsputn_vma := 0
  unique_i64 := 0

end AArch64TraceManager

/-- The ways the loop can fail: `elfconv_runtime_error`, or a read past the end of
`func_entrys` or outside the bytes of a section. -/
inductive LoadFault where
  | runtimeError (msg : String)
  | pastSymbols
  | pastBytes
deriving DecidableEq

/-- The number and the entry tell functions of one name apart. -/
def getUniqueLiftedFuncName (func_name : String) (unique_i64 vma_s : Nat) : String :=
  func_name ++ "_____" ++ toString unique_i64 ++ "_" ++ String.ofList (Nat.toDigits 16 vma_s)

/-- The copy of `n` bytes of the section from the address on. -/
def copyBytes (sec : CodeSection) :
    Nat → Nat → (Nat → Option UInt8) → Except LoadFault (Nat → Option UInt8)
  | _, 0, memory => .ok memory
  | addr, n + 1, memory =>
      match sec.byteAt addr with
      | none => .error .pastBytes
      | some b => copyBytes sec (addr + 1) n (Function.update memory addr (some b))

/-- The body of the inner loop: the function of a symbol, up to `fun_end_addr`. -/
def defineFunc (entry_point : Nat) (sec : CodeSection) (fun_end_addr : Nat) (e : FuncEntry)
    (tm : AArch64TraceManager) : Except LoadFault AArch64TraceManager :=
  let lifted_func_name := getUniqueLiftedFuncName e.func_name tm.unique_i64 e.entry
  if entry_point = e.entry ∧ tm.entry_func_lifted_name ≠ "" then
    .error (.runtimeError "[ERROR] multiple entrypoints are found.\n")
  else
    match copyBytes sec e.entry (fun_end_addr - e.entry) tm.memory with
    | .error fault => .error fault
    | .ok memory =>
        .ok
          { memory := memory
            disasm_funcs :=
              -- `emplace` keeps the function that is there
              Function.update tm.disasm_funcs e.entry
                ((tm.disasm_funcs e.entry).or
                  (some ⟨lifted_func_name, e.entry, fun_end_addr - e.entry⟩))
            entry_func_lifted_name :=
              if entry_point = e.entry then lifted_func_name else tm.entry_func_lifted_name
            io_file_xsputn_vma :=
              if "_IO_file_xsputn____".toList.isPrefixOf lifted_func_name.toList then e.entry
              else tm.io_file_xsputn_vma
            unique_i64 := tm.unique_i64 + 1 }

/-- `while (sec_addr < fun_end_addr)`, with the symbols that are left. -/
def defineFuncs (entry_point : Nat) (sec : CodeSection) :
    Nat → List FuncEntry → AArch64TraceManager →
      Except LoadFault (List FuncEntry × AArch64TraceManager)
  | fun_end_addr, [], tm =>
      if sec.vma < fun_end_addr then .error .pastSymbols else .ok ([], tm)
  | fun_end_addr, e :: func_entrys, tm =>
      if sec.vma < fun_end_addr then
        match defineFunc entry_point sec fun_end_addr e tm with
        | .error fault => .error fault
        | .ok tm' => defineFuncs entry_point sec e.entry func_entrys tm'
      else .ok (e :: func_entrys, tm)

namespace ELFObject

/-- One iteration of the outer loop: the section of the next symbol, and the inner loop. -/
def step (elf_obj : ELFObject) (s : List FuncEntry × AArch64TraceManager) :
    List FuncEntry × AArch64TraceManager ⊕ Except LoadFault AArch64TraceManager :=
  match s.1 with
  | [] => .inr (.ok s.2)
  | e :: _ =>
      match elf_obj.code_sections.filter (·.Contains e.entry) with
      | [] =>
          .inr (.error (.runtimeError
            ("[ERROR] \"" ++ e.func_name ++ "\" is not included in any section.\n")))
      | [sec] =>
          match defineFuncs elf_obj.entry sec (sec.vma + sec.size) s.1 s.2 with
          | .error fault => .inr (.error fault)
          | .ok s' => .inl s'
      | _ =>
          .inr (.error (.runtimeError
            ("[ERROR] \"" ++ e.func_name ++ "\" is included in multiple sections.\n")))

/-- The orders that `std::sort` can leave the symbols in. -/
structure Sorts (elf_obj : ELFObject) (func_entrys : List FuncEntry) : Prop where
  perm : func_entrys.Perm elf_obj.func_entrys
  descending : func_entrys.Pairwise fun e e' => e'.entry ≤ e.entry

/-! ### What the table is for -/

/-- The address is in a code section, at or above a symbol of the section. -/
def InCode (elf_obj : ELFObject) (a : Nat) : Prop :=
  ∃ sec ∈ elf_obj.code_sections, sec.Contains a ∧
    ∃ e ∈ elf_obj.func_entrys, sec.Contains e.entry ∧ e.entry ≤ a

/-- The functions partition the code from the lowest symbol of each section on. -/
structure Partitioned (elf_obj : ELFObject) (tm : AArch64TraceManager) : Prop where
  symbol : ∀ a f, tm.disasm_funcs a = some f → f.vma = a ∧ ∃ e ∈ elf_obj.func_entrys, e.entry = a
  apart : ∀ a f a' f', tm.disasm_funcs a = some f → tm.disasm_funcs a' = some f' → a ≠ a' →
    ∀ b, f.Contains b → ¬ f'.Contains b
  inside : ∀ a f, tm.disasm_funcs a = some f →
    ∃ sec ∈ elf_obj.code_sections, sec.Contains a ∧ f.vma + f.func_size ≤ sec.vma + sec.size
  covers : ∀ b, (∃ a f, tm.disasm_funcs a = some f ∧ f.Contains b) ↔ elf_obj.InCode b
  memory : ∀ b, elf_obj.InCode b → ∀ sec ∈ elf_obj.code_sections, sec.Contains b →
    (tm.memory b).isSome = true ∧ tm.memory b = sec.byteAt b

/-- Whatever the order of the sort, the loop ends without a fault and the functions
partition the code. -/
def SetsPartition (elf_obj : ELFObject) : Prop :=
  ∀ func_entrys, elf_obj.Sorts func_entrys →
    ∃ tm, Machine.Halts elf_obj.step (func_entrys, .init) (.ok tm) ∧ elf_obj.Partitioned tm

/-- A section with a symbol has one at its start. -/
def StartsWithSymbol (elf_obj : ELFObject) : Prop :=
  ∀ sec ∈ elf_obj.code_sections, ∀ e ∈ elf_obj.func_entrys, sec.Contains e.entry →
    ∃ e' ∈ elf_obj.func_entrys, e'.entry = sec.vma

/-- The entry point has at most one symbol. -/
def OneEntryPoint (elf_obj : ELFObject) : Prop :=
  elf_obj.func_entrys.countP (fun e => elf_obj.entry = e.entry) ≤ 1

end ELFObject

/-! ### Copies -/

variable {sec : CodeSection} {memory memory' : Nat → Option UInt8}

/-- A section has the bytes of its range. -/
theorem CodeSection.byteAt_isSome (sec : CodeSection) (a : Nat) :
    (sec.byteAt a).isSome = true ↔ sec.Contains a := by
  unfold CodeSection.byteAt CodeSection.Contains
  split
  · rename_i h
    have hlen := sec.length_bytes
    simp only [isSome_getElem?, hlen]
    omega
  · rename_i h
    exact iff_of_false Bool.false_ne_true fun hc => h hc.1

/-- The bytes of a range within the section can be copied. -/
theorem copyBytes_ok (memory : Nat → Option UInt8) (n addr : Nat)
    (h : ∀ a, addr ≤ a → a < addr + n → sec.Contains a) :
    ∃ memory', copyBytes sec addr n memory = .ok memory' := by
  induction n generalizing addr memory with
  | zero => exact ⟨memory, rfl⟩
  | succ n ih =>
      obtain ⟨b, hb⟩ := Option.isSome_iff_exists.mp
        ((sec.byteAt_isSome addr).mpr (h addr (Nat.le_refl _) (by omega)))
      obtain ⟨memory', hmemory⟩ := ih (Function.update memory addr (some b)) (addr + 1)
        fun a hle hlt => h a (by omega) (by omega)
      exact ⟨memory', by
        simp only [copyBytes, hb]
        exact hmemory⟩

/-- A copy that succeeds stays in the section, and changes the copied addresses alone. -/
theorem copyBytes_spec {addr n : Nat} (h : copyBytes sec addr n memory = .ok memory') :
    (∀ a, addr ≤ a → a < addr + n → sec.Contains a ∧ memory' a = sec.byteAt a) ∧
      ∀ a, ¬ (addr ≤ a ∧ a < addr + n) → memory' a = memory a := by
  induction n generalizing addr memory with
  | zero =>
      cases h
      exact ⟨fun a hle hlt => by omega, fun a _ => rfl⟩
  | succ n ih =>
      rw [copyBytes] at h
      cases hb : sec.byteAt addr with
      | none =>
          rw [hb] at h
          cases h
      | some b =>
          rw [hb] at h
          obtain ⟨hin, hout⟩ := ih h
          refine ⟨fun a hle hlt => ?_, fun a ha => ?_⟩
          · rcases Nat.eq_or_lt_of_le hle with rfl | hgt
            · refine ⟨(sec.byteAt_isSome addr).mp (by rw [hb]; rfl), ?_⟩
              rw [hout addr (by omega), Function.update_self, hb]
            · exact hin a (by omega) (by omega)
          · rw [hout a (by omega), Function.update_of_ne (by omega)]

/-! ### What one symbol does -/

variable {entry_point fun_end_addr : Nat} {e : FuncEntry} {tm tm' : AArch64TraceManager}

/-- No lifted name is empty. -/
theorem getUniqueLiftedFuncName_ne (func_name : String) (unique_i64 vma_s : Nat) :
    getUniqueLiftedFuncName func_name unique_i64 vma_s ≠ "" := by
  intro h
  have hlen := congrArg String.length h
  simp only [getUniqueLiftedFuncName, String.length_append] at hlen
  have h5 : "_____".length = 5 := rfl
  have h0 : "".length = 0 := rfl
  omega

/-- What is known when the body of the inner loop succeeds. -/
theorem defineFunc_spec (h : defineFunc entry_point sec fun_end_addr e tm = .ok tm') :
    (entry_point = e.entry → tm.entry_func_lifted_name = "") ∧
      (tm'.entry_func_lifted_name = "" ↔
        entry_point ≠ e.entry ∧ tm.entry_func_lifted_name = "") ∧
      copyBytes sec e.entry (fun_end_addr - e.entry) tm.memory = .ok tm'.memory ∧
      ∃ name, tm'.disasm_funcs = Function.update tm.disasm_funcs e.entry
        ((tm.disasm_funcs e.entry).or (some ⟨name, e.entry, fun_end_addr - e.entry⟩)) := by
  unfold defineFunc at h
  simp only at h
  split at h
  · cases h
  · rename_i hentry
    rw [not_and, not_not] at hentry
    split at h
    · cases h
    · rename_i memory hcopy
      cases h
      refine ⟨hentry, ?_, hcopy, _, rfl⟩
      by_cases he : entry_point = e.entry
      · simp only [if_pos he]
        exact iff_of_false (getUniqueLiftedFuncName_ne _ _ _) fun h => h.1 he
      · simp only [if_neg he]
        exact (and_iff_right he).symm

/-- A function within its section is defined, unless it is a second entry point. -/
theorem defineFunc_ok (hentry : entry_point = e.entry → tm.entry_func_lifted_name = "")
    (hsec : ∀ a, e.entry ≤ a → a < fun_end_addr → sec.Contains a) :
    ∃ tm', defineFunc entry_point sec fun_end_addr e tm = .ok tm' := by
  obtain ⟨memory, hcopy⟩ := copyBytes_ok tm.memory (fun_end_addr - e.entry) e.entry
    fun a hle hlt => hsec a hle (by omega)
  have hif : ¬ (entry_point = e.entry ∧ tm.entry_func_lifted_name ≠ "") :=
    fun h => h.2 (hentry h.1)
  exact ⟨_, by simp only [defineFunc, if_neg hif, hcopy]; rfl⟩

namespace ELFObject

variable {elf_obj : ELFObject} {done rest : List FuncEntry} {sec' : CodeSection}

/-! ### The table of the symbols that are done -/

/-- The function at `a` ends at the next symbol or at the end of its section. -/
structure Spans (elf_obj : ELFObject) (tm : AArch64TraceManager) (a : Nat) (f : DisasmFunc) :
    Prop where
  vma_eq : f.vma = a
  pos : 0 < f.func_size
  sec : ∃ sec ∈ elf_obj.code_sections, sec.Contains a ∧
    f.vma + f.func_size ≤ sec.vma + sec.size ∧
      (f.vma + f.func_size = sec.vma + sec.size ∨
        ∃ e ∈ elf_obj.func_entrys, e.entry = f.vma + f.func_size)
  next : ∀ e ∈ elf_obj.func_entrys, a < e.entry → f.vma + f.func_size ≤ e.entry
  copied : ∀ b, f.Contains b → (tm.memory b).isSome = true

/-- The state of the table when the symbols of `done` have been defined. -/
structure Built (elf_obj : ELFObject) (done : List FuncEntry) (tm : AArch64TraceManager) :
    Prop where
  symbol : ∀ a, (tm.disasm_funcs a).isSome = true ↔ ∃ e ∈ done, e.entry = a
  spans : ∀ a f, tm.disasm_funcs a = some f → elf_obj.Spans tm a f
  bytes : ∀ b v, tm.memory b = some v → ∃ sec ∈ elf_obj.code_sections, sec.byteAt b = some v
  entry_le : done.countP (fun e => elf_obj.entry = e.entry) ≤ 1
  entry_set : tm.entry_func_lifted_name = "" ↔ ∀ e ∈ done, elf_obj.entry ≠ e.entry

/-- Before the loop nothing is built. -/
theorem built_init (elf_obj : ELFObject) : elf_obj.Built [] .init where
  symbol _ := iff_of_false Bool.false_ne_true fun ⟨_, h, _⟩ => absurd h List.not_mem_nil
  spans _ _ h := nomatch h
  bytes _ _ h := nomatch h
  entry_le := Nat.zero_le 1
  entry_set := iff_of_true rfl fun _ h => absurd h List.not_mem_nil

/-- An address lies in one section at most. -/
theorem sec_unique (hsec : sec ∈ elf_obj.code_sections) (hsec' : sec' ∈ elf_obj.code_sections)
    {a : Nat} (h : sec.Contains a) (h' : sec'.Contains a) : sec = sec' := by
  by_contra hne
  have : Std.Symm fun sec sec' : CodeSection => ∀ a, sec.Contains a → ¬ sec'.Contains a :=
    ⟨fun _ _ h a ha ha' => h a ha' ha⟩
  exact elf_obj.disjoint.forall hsec hsec' hne a h h'

/-- The symbols are those before and those still to come. -/
theorem Sorts.mem_iff (h : elf_obj.Sorts (done ++ rest)) (d : FuncEntry) :
    d ∈ elf_obj.func_entrys ↔ d ∈ done ∨ d ∈ rest := by
  rw [← h.perm.mem_iff, List.mem_append]

/-! ### The inner loop -/

/-- The state of the inner loop.  Either the section had no symbol before and the next
function ends at the last symbol, or the section is done and the symbols at its start are
seen again. -/
structure Descent (elf_obj : ELFObject) (sec : CodeSection) (fun_end_addr : Nat)
    (done rest : List FuncEntry) (tm : AArch64TraceManager) : Prop where
  sorts : elf_obj.Sorts (done ++ rest)
  built : elf_obj.Built done tm
  fun_end_le : fun_end_addr ≤ sec.vma + sec.size
  below : ∀ e ∈ rest, e.entry ≤ fun_end_addr ∧ e.entry < sec.vma + sec.size
  fresh : ((fun_end_addr = sec.vma + sec.size ∨ ∃ d ∈ done, d.entry = fun_end_addr) ∧
      ∀ d ∈ done, fun_end_addr ≤ d.entry) ∨
    (∃ d ∈ done, d.entry = sec.vma) ∧ ∀ e ∈ rest, sec.Contains e.entry → e.entry = sec.vma

/-- The function of a symbol stays when further symbols are done. -/
theorem Spans.mono {a : Nat} {f : DisasmFunc} (h : elf_obj.Spans tm a f)
    (hmem : ∀ b, (tm.memory b).isSome = true → (tm'.memory b).isSome = true) :
    elf_obj.Spans tm' a f :=
  { h with copied := fun b hb => hmem b (h.copied b hb) }

/-- Copying more bytes leaves those that are there. -/
theorem Built.memory_mono {n : Nat} (hcopy : copyBytes sec e.entry n tm.memory = .ok tm'.memory)
    (b : Nat) (hb : (tm.memory b).isSome = true) : (tm'.memory b).isSome = true := by
  obtain ⟨hin, hout⟩ := copyBytes_spec hcopy
  by_cases hrange : e.entry ≤ b ∧ b < e.entry + n
  · rw [(hin b hrange.1 hrange.2).2]
    exact (sec.byteAt_isSome b).mpr (hin b hrange.1 hrange.2).1
  · rw [hout b hrange]
    exact hb

/-- The symbol of an iteration that succeeds is in the section. -/
theorem Descent.contains (h : elf_obj.Descent sec fun_end_addr done (e :: rest) tm)
    (hlt : sec.vma < fun_end_addr)
    (hok : defineFunc elf_obj.entry sec fun_end_addr e tm = .ok tm') : sec.Contains e.entry := by
  obtain ⟨-, -, hcopy, -⟩ := defineFunc_spec hok
  obtain ⟨hle, hend⟩ := h.below e List.mem_cons_self
  rcases Nat.eq_or_lt_of_le hle with heq | hbelow
  · exact ⟨by omega, hend⟩
  · exact ((copyBytes_spec hcopy).1 e.entry (Nat.le_refl _) (by omega)).1

/-- A new function ends at the last symbol. -/
theorem Descent.spans (h : elf_obj.Descent sec fun_end_addr done (e :: rest) tm)
    (hsec : sec ∈ elf_obj.code_sections) (hlt : sec.vma < fun_end_addr)
    (hok : defineFunc elf_obj.entry sec fun_end_addr e tm = .ok tm')
    (hnew : tm.disasm_funcs e.entry = none) (name : String) :
    elf_obj.Spans tm' e.entry ⟨name, e.entry, fun_end_addr - e.entry⟩ := by
  -- the entry has no function yet, so no symbol before has its address
  have hnot : ∀ d ∈ done, d.entry ≠ e.entry := by
    intro d hd heq
    have hsome := (h.built.symbol e.entry).mpr ⟨d, hd, heq⟩
    rw [hnew] at hsome
    cases hsome
  have hcontains := h.contains hlt hok
  obtain ⟨hle, hend⟩ := h.below e List.mem_cons_self
  -- and the loop has not come to a second symbol of the address
  obtain ⟨hstart, hdone⟩ := h.fresh.resolve_right fun ⟨⟨d, hd, hentry⟩, hrest⟩ =>
    hnot d hd (hentry.trans (hrest e List.mem_cons_self hcontains).symm)
  have hpos : e.entry < fun_end_addr := by
    rcases hstart with hstart | ⟨d, hd, hentry⟩
    · omega
    · have := hnot d hd
      omega
  obtain ⟨-, -, hcopy, -⟩ := defineFunc_spec hok
  have hfend := h.fun_end_le
  have hsum : e.entry + (fun_end_addr - e.entry) = fun_end_addr := by omega
  refine
    { vma_eq := rfl
      pos := Nat.sub_pos_of_lt hpos
      sec := ⟨sec, hsec, hcontains, ?_, ?_⟩
      next := fun e' he' hgt => ?_
      copied := fun b hb => ?_ }
  · simp only [hsum]
    exact hfend
  · simp only [hsum]
    exact hstart.imp_right fun ⟨d, hd, hentry⟩ =>
      ⟨d, (h.sorts.mem_iff d).mpr (.inl hd), hentry⟩
  · simp only [hsum]
    rcases (h.sorts.mem_iff e').mp he' with hd | hr
    · exact hdone e' hd
    · -- a symbol that is left is not above this one
      have hdesc := (List.pairwise_append.mp h.sorts.descending).2.1
      rcases List.mem_cons.mp hr with rfl | hr
      · exact absurd hgt (Nat.lt_irrefl _)
      · have := List.rel_of_pairwise_cons hdesc hr
        omega
  · obtain ⟨hcon, hbyte⟩ := (copyBytes_spec hcopy).1 b hb.1 hb.2
    rw [hbyte]
    exact (sec.byteAt_isSome b).mpr hcon

/-- **The table after one more symbol.** -/
theorem Descent.built_step (h : elf_obj.Descent sec fun_end_addr done (e :: rest) tm)
    (hsec : sec ∈ elf_obj.code_sections) (hlt : sec.vma < fun_end_addr)
    (hok : defineFunc elf_obj.entry sec fun_end_addr e tm = .ok tm') :
    elf_obj.Built (done ++ [e]) tm' := by
  obtain ⟨hentry, hname, hcopy, name, hfuncs⟩ := defineFunc_spec hok
  have hmono := Built.memory_mono hcopy
  obtain ⟨hin, hout⟩ := copyBytes_spec hcopy
  refine
    { symbol := fun a => ?_
      spans := fun a f hf => ?_
      bytes := fun b v hb => ?_
      entry_le := ?_
      entry_set := ?_ }
  · -- a function for each symbol: the new entry, or one that was there
    rw [hfuncs]
    simp only [List.mem_append, List.mem_singleton, or_and_right, exists_or, exists_eq_left]
    rw [← h.built.symbol]
    by_cases ha : a = e.entry
    · subst ha
      rw [Function.update_self]
      cases tm.disasm_funcs e.entry with
      | none => exact iff_of_true rfl (.inr rfl)
      | some f => exact iff_of_true rfl (.inl rfl)
    · rw [Function.update_of_ne ha]
      exact (or_iff_left fun heq => ha heq.symm).symm
  · -- a second symbol of an address keeps the function of the first
    rw [hfuncs] at hf
    by_cases ha : a = e.entry
    · subst ha
      rw [Function.update_self] at hf
      cases hold : tm.disasm_funcs e.entry with
      | none =>
          rw [hold] at hf
          cases hf
          exact h.spans hsec hlt hok hold name
      | some g =>
          rw [hold] at hf
          cases hf
          exact (h.built.spans _ _ hold).mono hmono
    · rw [Function.update_of_ne ha] at hf
      exact (h.built.spans a f hf).mono hmono
  · -- the bytes are those of the section, copied now or before
    by_cases hrange : e.entry ≤ b ∧ b < e.entry + (fun_end_addr - e.entry)
    · rw [(hin b hrange.1 hrange.2).2] at hb
      exact ⟨sec, hsec, hb⟩
    · rw [hout b hrange] at hb
      exact h.built.bytes b v hb
  · -- at most one symbol at the entry point has set the name
    rw [List.countP_append, List.countP_singleton]
    by_cases he : elf_obj.entry = e.entry
    · -- the name was not set, so no symbol was at the entry point
      have hzero : done.countP (fun e => elf_obj.entry = e.entry) = 0 :=
        List.countP_eq_zero.mpr fun d hd =>
          mt of_decide_eq_true (h.built.entry_set.mp (hentry he) d hd)
      rw [hzero, Nat.zero_add]
      split
      · exact Nat.le_refl 1
      · exact Nat.zero_le 1
    · have hle := h.built.entry_le
      simp only [he, decide_false, Bool.false_eq_true, if_false]
      exact hle
  · rw [hname, h.built.entry_set]
    simp only [List.mem_append, List.mem_singleton, or_imp, forall_and, forall_eq]
    exact and_comm

/-- **One iteration of the inner loop.** -/
theorem Descent.step (h : elf_obj.Descent sec fun_end_addr done (e :: rest) tm)
    (hsec : sec ∈ elf_obj.code_sections) (hlt : sec.vma < fun_end_addr)
    (hok : defineFunc elf_obj.entry sec fun_end_addr e tm = .ok tm') :
    elf_obj.Descent sec e.entry (done ++ [e]) rest tm' := by
  obtain ⟨hle, hend⟩ := h.below e List.mem_cons_self
  have hdesc := (List.pairwise_append.mp h.sorts.descending).2.1
  refine
    { sorts := by
        rw [List.append_assoc, List.singleton_append]
        exact h.sorts
      built := h.built_step hsec hlt hok
      fun_end_le := Nat.le_of_lt hend
      below := fun e' he' => ⟨List.rel_of_pairwise_cons hdesc he',
        (h.below e' (List.mem_cons_of_mem _ he')).2⟩
      fresh := ?_ }
  rcases h.fresh with ⟨-, hdone⟩ | ⟨⟨d, hd, hentry⟩, hrest⟩
  · refine .inl ⟨.inr ⟨e, List.mem_append_right _ List.mem_cons_self, rfl⟩, fun d hd => ?_⟩
    rcases List.mem_append.mp hd with hd | hd
    · exact hle.trans (hdone d hd)
    · rw [List.mem_singleton.mp hd]
  · exact .inr ⟨⟨d, List.mem_append_left _ hd, hentry⟩,
      fun e' he' => hrest e' (List.mem_cons_of_mem _ he')⟩

/-- At the start of the section nothing more is defined. -/
theorem Descent.run_start (h : elf_obj.Descent sec fun_end_addr done rest tm)
    (hge : ¬ sec.vma < fun_end_addr) :
    ∃ new, rest = new ++ rest ∧ elf_obj.Built (done ++ new) tm ∧
      (∀ c ∈ new, sec.Contains c.entry) ∧
      (sec.vma < fun_end_addr → ∃ c ∈ new, c.entry = sec.vma) := by
  refine ⟨[], rfl, ?_, fun c hc => absurd hc List.not_mem_nil, fun hlt => absurd hlt hge⟩
  rw [List.append_nil]
  exact h.built

/-- **The inner loop, when it succeeds**, defines symbols of its section down to the start
of the section. -/
theorem Descent.run {s' : List FuncEntry × AArch64TraceManager}
    (h : elf_obj.Descent sec fun_end_addr done rest tm) (hsec : sec ∈ elf_obj.code_sections)
    (hok : defineFuncs elf_obj.entry sec fun_end_addr rest tm = .ok s') :
    ∃ new, rest = new ++ s'.1 ∧ elf_obj.Built (done ++ new) s'.2 ∧
      (∀ c ∈ new, sec.Contains c.entry) ∧
      (sec.vma < fun_end_addr → ∃ c ∈ new, c.entry = sec.vma) := by
  -- over the symbols left, with what was defined so far and where the last function starts
  induction rest generalizing fun_end_addr done tm with
  | nil =>
      rw [defineFuncs] at hok
      split at hok
      · cases hok
      · rename_i hge
        cases hok
        exact h.run_start hge
  | cons e rest ih =>
      rw [defineFuncs] at hok
      split at hok
      · rename_i hlt
        cases hdef : defineFunc elf_obj.entry sec fun_end_addr e tm with
        | error fault =>
            rw [hdef] at hok
            cases hok
        | ok tm' =>
            rw [hdef] at hok
            have hcontains := h.contains hlt hdef
            obtain ⟨new, hnew, hbuilt, hin, hstart⟩ := ih (h.step hsec hlt hdef) hok
            refine ⟨e :: new, by rw [hnew, List.cons_append], ?_, ?_, fun _ => ?_⟩
            · rw [List.append_assoc, List.singleton_append] at hbuilt
              exact hbuilt
            · exact List.forall_mem_cons.mpr ⟨hcontains, hin⟩
            · -- the symbol at the start of the section is this one or a later one
              rcases Nat.eq_or_lt_of_le hcontains.1 with heq | hgt
              · exact ⟨e, List.mem_cons_self, heq.symm⟩
              · obtain ⟨c, hc, hentry⟩ := hstart hgt
                exact ⟨c, List.mem_cons_of_mem _ hc, hentry⟩
      · rename_i hge
        cases hok
        exact h.run_start hge

/-- **The inner loop succeeds** when a symbol that is left is at the start of the section
and at most one symbol is at the entry point. -/
theorem Descent.ok (h : elf_obj.Descent sec fun_end_addr done rest tm)
    (hsec : sec ∈ elf_obj.code_sections) (hone : elf_obj.OneEntryPoint)
    (hstart : sec.vma < fun_end_addr → ∃ c ∈ rest, c.entry = sec.vma) :
    ∃ s', defineFuncs elf_obj.entry sec fun_end_addr rest tm = .ok s' := by
  induction rest generalizing fun_end_addr done tm with
  | nil =>
      have hge : ¬ sec.vma < fun_end_addr := fun hlt => by
        obtain ⟨c, hc, -⟩ := hstart hlt
        cases hc
      exact ⟨_, by rw [defineFuncs, if_neg hge]⟩
  | cons e rest ih =>
      by_cases hlt : sec.vma < fun_end_addr
      · obtain ⟨c, hc, hentry⟩ := hstart hlt
        have hdesc := (List.pairwise_append.mp h.sorts.descending).2.1
        have hce : c.entry ≤ e.entry := by
          rcases List.mem_cons.mp hc with rfl | hc
          · exact Nat.le_refl _
          · exact List.rel_of_pairwise_cons hdesc hc
        have hfend := h.fun_end_le
        have hname : elf_obj.entry = e.entry → tm.entry_func_lifted_name = "" := by
          refine fun he => h.built.entry_set.mpr fun d hd hde => ?_
          -- there would be a second symbol at the entry point
          have hcons : 0 < (e :: rest).countP (fun e => elf_obj.entry = e.entry) :=
            List.countP_pos_iff.mpr ⟨e, List.mem_cons_self, decide_eq_true he⟩
          rw [OneEntryPoint, ← h.sorts.perm.countP_eq, List.countP_append] at hone
          have hpos : 0 < done.countP (fun e => elf_obj.entry = e.entry) :=
            List.countP_pos_iff.mpr ⟨d, hd, decide_eq_true hde⟩
          omega
        have hbytes : ∀ a, e.entry ≤ a → a < fun_end_addr → sec.Contains a :=
          fun a hle hlt => ⟨by omega, by omega⟩
        obtain ⟨tm', hdef⟩ := defineFunc_ok hname hbytes
        obtain ⟨s', hs'⟩ := ih (h.step hsec hlt hdef) fun hgt => by
          rcases List.mem_cons.mp hc with rfl | hc
          · omega
          · exact ⟨c, hc, hentry⟩
        exact ⟨s', by rw [defineFuncs, if_pos hlt, hdef]; exact hs'⟩
      · exact ⟨_, by rw [defineFuncs, if_neg hlt]⟩

/-! ### The outer loop -/

/-- The state of the outer loop: in a section with a symbol that is done, one at the start
of the section is done, and the symbols that are left are there too. -/
structure Outer (elf_obj : ELFObject) (done : List FuncEntry)
    (s : List FuncEntry × AArch64TraceManager) : Prop where
  sorts : elf_obj.Sorts (done ++ s.1)
  built : elf_obj.Built done s.2
  closed : ∀ sec ∈ elf_obj.code_sections, ∀ d ∈ done, sec.Contains d.entry →
    (∃ d' ∈ done, d'.entry = sec.vma) ∧ ∀ e ∈ s.1, sec.Contains e.entry → e.entry = sec.vma

/-- The section of the next symbol is found. -/
theorem filter_contains (hsec : sec ∈ elf_obj.code_sections) (hin : sec.Contains e.entry) :
    elf_obj.code_sections.filter (·.Contains e.entry) = [sec] := by
  have hmem : ∀ sec' ∈ elf_obj.code_sections.filter (·.Contains e.entry), sec' = sec := by
    intro sec' h
    obtain ⟨hsec', hin'⟩ := List.mem_filter.mp h
    exact elf_obj.sec_unique hsec' hsec (of_decide_eq_true hin') hin
  have hself : sec ∈ elf_obj.code_sections.filter (·.Contains e.entry) :=
    List.mem_filter.mpr ⟨hsec, decide_eq_true hin⟩
  have hapart := elf_obj.disjoint.filter (·.Contains e.entry)
  rcases hl : elf_obj.code_sections.filter (·.Contains e.entry) with - | ⟨a, - | ⟨b, l⟩⟩
  · rw [hl] at hself
    cases hself
  · rw [hl] at hmem
    exact hl.trans (congrArg (fun x => [x]) (hmem a List.mem_cons_self))
  · rw [hl] at hmem hapart
    have ha := hmem a List.mem_cons_self
    have hb := hmem b (List.mem_cons_of_mem _ List.mem_cons_self)
    subst ha hb
    exact absurd hin (List.rel_of_pairwise_cons hapart List.mem_cons_self e.entry hin)

/-- The inner loop starts at the end of the section. -/
theorem Outer.descent (h : elf_obj.Outer done (e :: rest, tm))
    (hsec : sec ∈ elf_obj.code_sections) (hin : sec.Contains e.entry) :
    elf_obj.Descent sec (sec.vma + sec.size) done (e :: rest) tm := by
  obtain ⟨-, hdesc, habove⟩ := List.pairwise_append.mp h.sorts.descending
  have hbelow : ∀ e' ∈ e :: rest, e'.entry ≤ e.entry := by
    intro e' he'
    rcases List.mem_cons.mp he' with rfl | he'
    · exact Nat.le_refl _
    · exact List.rel_of_pairwise_cons hdesc he'
  have hend := hin.2
  refine ⟨h.sorts, h.built, Nat.le_refl _, fun e' he' => ?_, ?_⟩
  · have := hbelow e' he'
    omega
  · by_cases hseen : ∃ d ∈ done, sec.Contains d.entry
    · obtain ⟨d, hd, hcon⟩ := hseen
      exact .inr (h.closed sec hsec d hd hcon)
    · refine .inl ⟨.inl rfl, fun d hd => ?_⟩
      by_contra hlt
      have hle : e.entry ≤ d.entry := habove d hd e List.mem_cons_self
      exact hseen ⟨d, hd, hin.1.trans hle, Nat.lt_of_not_le hlt⟩

/-- The next symbol lies in a section, and the iteration is the inner loop over it. -/
theorem Outer.step_eq (h : elf_obj.Outer done (e :: rest, tm)) :
    ∃ sec ∈ elf_obj.code_sections, sec.Contains e.entry ∧
      elf_obj.step (e :: rest, tm) =
        match defineFuncs elf_obj.entry sec (sec.vma + sec.size) (e :: rest) tm with
        | .error fault => .inr (.error fault)
        | .ok s' => .inl s' := by
  obtain ⟨sec, hsec, hin⟩ :=
    elf_obj.lies e ((h.sorts.mem_iff e).mpr (.inr List.mem_cons_self))
  exact ⟨sec, hsec, hin, by simp only [step, elf_obj.filter_contains hsec hin]⟩

/-- **One iteration of the outer loop.** -/
theorem Outer.step {s s' : List FuncEntry × AArch64TraceManager} (h : elf_obj.Outer done s)
    (hstep : elf_obj.step s = .inl s') :
    ∃ done', elf_obj.Outer done' s' ∧ s'.1.length < s.1.length := by
  obtain ⟨- | ⟨e, rest⟩, tm⟩ := s
  · cases hstep
  · obtain ⟨sec, hsec, hin, heq⟩ := h.step_eq
    rw [heq] at hstep
    cases hdef : defineFuncs elf_obj.entry sec (sec.vma + sec.size) (e :: rest) tm with
    | error fault =>
        rw [hdef] at hstep
        cases hstep
    | ok s'' =>
        rw [hdef] at hstep
        cases hstep
        obtain ⟨new, hnew, hbuilt, hcon, hstart⟩ := (h.descent hsec hin).run hsec hdef
        obtain ⟨c, hc, hentry⟩ := hstart (Nat.lt_of_le_of_lt hin.1 hin.2)
        have hsorts : elf_obj.Sorts ((done ++ new) ++ s'.1) := by
          rw [List.append_assoc, ← hnew]
          exact h.sorts
        -- the symbols that are left lie below those of this section
        have hleft := (List.pairwise_append.mp hsorts.descending).2.2
        refine ⟨done ++ new, ⟨hsorts, hbuilt, fun sec' hsec' d hd hd' => ?_⟩, ?_⟩
        · rcases List.mem_append.mp hd with hold | hd
          · obtain ⟨⟨d', hd', hentry'⟩, hrest⟩ := h.closed sec' hsec' d hold hd'
            refine ⟨⟨d', List.mem_append_left _ hd', hentry'⟩, fun e' he' => hrest e' ?_⟩
            rw [hnew]
            exact List.mem_append_right _ he'
          · obtain rfl := elf_obj.sec_unique hsec hsec' (hcon d hd) hd'
            refine ⟨⟨c, List.mem_append_right _ hc, hentry⟩, fun e' he' hcon' => ?_⟩
            have hle := hleft c (List.mem_append_right _ hc) e' he'
            have hge := hcon'.1
            omega
        · have hlen := congrArg List.length hnew
          have hpos := List.length_pos_of_mem hc
          rw [List.length_append] at hlen
          simp only
          omega

/-- The outer loop ends when all symbols are done. -/
theorem Outer.stop {s : List FuncEntry × AArch64TraceManager} (h : elf_obj.Outer done s)
    (hstop : elf_obj.step s = .inr (.ok tm)) : elf_obj.Outer done ([], tm) := by
  obtain ⟨- | ⟨e, rest⟩, tm'⟩ := s
  · cases hstop
    exact h
  · obtain ⟨sec, -, -, heq⟩ := h.step_eq
    rw [heq] at hstop
    cases hdef : defineFuncs elf_obj.entry sec (sec.vma + sec.size) (e :: rest) tm' with
    | error fault =>
        rw [hdef] at hstop
        cases hstop
    | ok s'' =>
        rw [hdef] at hstop
        cases hstop

/-- An iteration has no fault when every section with a symbol has one at its start and at
most one symbol is at the entry point. -/
theorem Outer.no_fault {s : List FuncEntry × AArch64TraceManager} (h : elf_obj.Outer done s)
    (hstarts : elf_obj.StartsWithSymbol) (hone : elf_obj.OneEntryPoint) (fault : LoadFault) :
    elf_obj.step s ≠ .inr (.error fault) := by
  intro hstop
  obtain ⟨- | ⟨e, rest⟩, tm⟩ := s
  · cases hstop
  · obtain ⟨sec, hsec, hin, heq⟩ := h.step_eq
    have hmem := (h.sorts.mem_iff e).mpr (.inr List.mem_cons_self)
    have hstart : ∃ c ∈ e :: rest, c.entry = sec.vma := by
      by_cases hseen : ∃ d ∈ done, sec.Contains d.entry
      · obtain ⟨d, hd, hcon⟩ := hseen
        exact ⟨e, List.mem_cons_self,
          (h.closed sec hsec d hd hcon).2 e List.mem_cons_self hin⟩
      · obtain ⟨c, hc, hentry⟩ := hstarts sec hsec e hmem hin
        rcases (h.sorts.mem_iff c).mp hc with hd | hr
        · refine absurd ⟨c, hd, ?_⟩ hseen
          rw [CodeSection.Contains] at hin ⊢
          omega
        · exact ⟨c, hr, hentry⟩
    obtain ⟨s', hs'⟩ := (h.descent hsec hin).ok hsec hone fun _ => hstart
    rw [heq, hs'] at hstop
    cases hstop

/-- The outer loop starts with all symbols before it. -/
theorem outer_init {func_entrys : List FuncEntry} (h : elf_obj.Sorts func_entrys) :
    elf_obj.Outer [] (func_entrys, .init) where
  sorts := h
  built := elf_obj.built_init
  closed _ _ _ hd := absurd hd List.not_mem_nil

/-! ### The finished table -/

/-- The symbol that is next below an address. -/
theorem exists_greatest {a : Nat} (he : e ∈ elf_obj.func_entrys) (hle : e.entry ≤ a) :
    ∃ g ∈ elf_obj.func_entrys, g.entry ≤ a ∧
      ∀ e' ∈ elf_obj.func_entrys, e'.entry ≤ a → e'.entry ≤ g.entry := by
  let P : Nat → Prop := fun n => ∃ g ∈ elf_obj.func_entrys, g.entry = n
  obtain ⟨g, hg, hentry⟩ := Nat.findGreatest_spec (P := P) hle ⟨e, he, rfl⟩
  refine ⟨g, hg, ?_, fun e' he' hle' => ?_⟩
  · rw [hentry]
    exact Nat.findGreatest_le a
  · rw [hentry]
    exact Nat.le_findGreatest hle' ⟨e', he', rfl⟩

/-- A function ends before the next symbol. -/
theorem Spans.lt_of_contains {a b : Nat} {f : DisasmFunc} (h : elf_obj.Spans tm a f)
    (he : e ∈ elf_obj.func_entrys) (hlt : a < e.entry) (hb : f.Contains b) : b < e.entry := by
  have hnext := h.next e he hlt
  have hend := hb.2
  omega

section

variable {func_entrys : List FuncEntry}

/-- Every function has its symbol. -/
theorem Built.symbol_of_some (hsorts : elf_obj.Sorts func_entrys)
    (h : elf_obj.Built func_entrys tm) {a : Nat} {f : DisasmFunc}
    (hf : tm.disasm_funcs a = some f) : ∃ e ∈ elf_obj.func_entrys, e.entry = a := by
  obtain ⟨e, he, hentry⟩ := (h.symbol a).mp (by rw [hf]; rfl)
  exact ⟨e, hsorts.perm.mem_iff.mp he, hentry⟩

/-- The functions cover the code, once all symbols are done. -/
theorem Built.covers (hsorts : elf_obj.Sorts func_entrys) (h : elf_obj.Built func_entrys tm)
    (b : Nat) : (∃ a f, tm.disasm_funcs a = some f ∧ f.Contains b) ↔ elf_obj.InCode b := by
  constructor
  · rintro ⟨a, f, hf, hb⟩
    obtain ⟨e, he, rfl⟩ := h.symbol_of_some hsorts hf
    have hspans := h.spans _ f hf
    obtain ⟨sec, hsec, hin, hend, -⟩ := hspans.sec
    have hvma := hspans.vma_eq
    have hstart := hin.1
    obtain ⟨hle, hlt⟩ := hb
    exact ⟨sec, hsec, ⟨by omega, by omega⟩, e, he, hin, by omega⟩
  · rintro ⟨sec, hsec, hb, e, he, hin, hle⟩
    -- the greatest symbol that is not above the address
    obtain ⟨g, hg, hgle, hmax⟩ := exists_greatest he hle
    have hge := hmax e he hle
    have hin_g : sec.Contains g.entry := ⟨hin.1.trans hge, Nat.lt_of_le_of_lt hgle hb.2⟩
    obtain ⟨f, hf⟩ := Option.isSome_iff_exists.mp
      ((h.symbol g.entry).mpr ⟨g, hsorts.perm.mem_iff.mpr hg, rfl⟩)
    have hspans := h.spans _ f hf
    have hvma := hspans.vma_eq
    have hpos := hspans.pos
    obtain ⟨sec', hsec', hin', -, hend⟩ := hspans.sec
    obtain rfl := elf_obj.sec_unique hsec hsec' hin_g hin'
    refine ⟨g.entry, f, hf, by omega, ?_⟩
    rcases hend with hend | ⟨e', he', hend⟩
    · rw [hend]
      exact hb.2
    · -- the next symbol is above the address, since `g` is the greatest one below it
      by_contra hlt
      have := hmax e' he' (by omega)
      omega

/-- **The table of all symbols partitions the code.** -/
theorem Built.partitioned (hsorts : elf_obj.Sorts func_entrys)
    (h : elf_obj.Built func_entrys tm) : elf_obj.Partitioned tm where
  symbol a f hf := ⟨(h.spans a f hf).vma_eq, h.symbol_of_some hsorts hf⟩
  apart a f a' f' hf hf' hne b hb hb' := by
    have hspans := h.spans a f hf
    have hspans' := h.spans a' f' hf'
    obtain ⟨e, he, rfl⟩ := h.symbol_of_some hsorts hf
    obtain ⟨e', he', rfl⟩ := h.symbol_of_some hsorts hf'
    -- a function ends before the next symbol above it
    rcases Nat.lt_or_gt_of_ne hne with hlt | hgt
    · have hb_lt := hspans.lt_of_contains he' hlt hb
      have hle := hb'.1
      rw [hspans'.vma_eq] at hle
      omega
    · have hb_lt := hspans'.lt_of_contains he hgt hb'
      have hle := hb.1
      rw [hspans.vma_eq] at hle
      omega
  inside a f hf := by
    obtain ⟨sec, hsec, hin, hend, -⟩ := (h.spans a f hf).sec
    exact ⟨sec, hsec, hin, hend⟩
  covers := h.covers hsorts
  memory b hb sec hsec hin := by
    obtain ⟨a, f, hf, hcon⟩ := (h.covers hsorts b).mpr hb
    have hsome := (h.spans a f hf).copied b hcon
    obtain ⟨v, hv⟩ := Option.isSome_iff_exists.mp hsome
    obtain ⟨sec', hsec', hbyte⟩ := h.bytes b v hv
    have hin' : sec'.Contains b := (sec'.byteAt_isSome b).mp (by rw [hbyte]; rfl)
    obtain rfl := elf_obj.sec_unique hsec' hsec hin' hin
    exact ⟨hsome, hv.trans hbyte.symm⟩

/-- A table of all symbols, with the symbols of every section done down to its start. -/
theorem Outer.conditions (h : elf_obj.Outer done ([], tm)) :
    elf_obj.StartsWithSymbol ∧ elf_obj.OneEntryPoint := by
  have hperm := h.sorts.perm
  rw [List.append_nil] at hperm
  refine ⟨fun sec hsec e he hin => ?_, ?_⟩
  · obtain ⟨⟨d, hd, hentry⟩, -⟩ := h.closed sec hsec e (hperm.mem_iff.mpr he) hin
    exact ⟨d, hperm.mem_iff.mp hd, hentry⟩
  · rw [OneEntryPoint, ← hperm.countP_eq]
    exact h.built.entry_le

end

/-! ### The partition -/

/-- The loop ends: with the table of all symbols, or with a fault if one of the conditions
does not hold. -/
theorem halts {func_entrys : List FuncEntry} (hsorts : elf_obj.Sorts func_entrys) :
    ∃ r, Machine.Halts elf_obj.step (func_entrys, .init) r ∧
      (∀ tm, r = .ok tm → ∃ done, elf_obj.Outer done ([], tm)) ∧
        ∀ fault, r = .error fault → ¬ (elf_obj.StartsWithSymbol ∧ elf_obj.OneEntryPoint) := by
  refine Machine.halts_of_measure (· < ·) Nat.lt_wfRel.wf
    (I := fun s => ∃ done, elf_obj.Outer done s) (fun s => s.1.length)
    (fun s s' hs hstep => ?_) (fun s r hs hstop => ?_) ⟨[], outer_init hsorts⟩
  · obtain ⟨done, h⟩ := hs
    obtain ⟨done', h', hlt⟩ := h.step hstep
    exact ⟨⟨done', h'⟩, hlt⟩
  · obtain ⟨done, h⟩ := hs
    refine ⟨fun tm hr => ⟨done, h.stop (hr ▸ hstop)⟩, fun fault hr hcond => ?_⟩
    exact h.no_fault hcond.1 hcond.2 fault (hr ▸ hstop)

/-- The sort leaves the symbols in some order. -/
theorem exists_sorts (elf_obj : ELFObject) : ∃ func_entrys, elf_obj.Sorts func_entrys := by
  refine ⟨elf_obj.func_entrys.mergeSort fun e e' => e'.entry ≤ e.entry,
    List.mergeSort_perm _ _, ?_⟩
  refine (List.pairwise_mergeSort ?_ ?_ elf_obj.func_entrys).imp of_decide_eq_true
  · intro a b c hab hbc
    exact decide_eq_true ((of_decide_eq_true hbc).trans (of_decide_eq_true hab))
  · intro a b
    rw [Bool.or_eq_true, decide_eq_true_eq, decide_eq_true_eq]
    exact Nat.le_total _ _

/-- **The loop partitions the code exactly when every section with a symbol has one at its
start and the entry point has at most one symbol.** -/
theorem setsPartition_iff (elf_obj : ELFObject) :
    elf_obj.SetsPartition ↔ elf_obj.StartsWithSymbol ∧ elf_obj.OneEntryPoint := by
  constructor
  · intro h
    obtain ⟨func_entrys, hsorts⟩ := elf_obj.exists_sorts
    obtain ⟨tm, hhalts, -⟩ := h func_entrys hsorts
    obtain ⟨r, hr, hok, -⟩ := elf_obj.halts hsorts
    obtain ⟨done, houter⟩ := hok tm (Machine.halts_unique hr hhalts)
    exact houter.conditions
  · intro hcond func_entrys hsorts
    obtain ⟨r, hr, hok, herror⟩ := elf_obj.halts hsorts
    cases r with
    | error fault => exact absurd hcond (herror fault rfl)
    | ok tm =>
        obtain ⟨done, houter⟩ := hok tm rfl
        have hdone := houter.sorts
        have hbuilt := houter.built
        rw [List.append_nil] at hdone
        exact ⟨tm, hr, hbuilt.partitioned hdone⟩

/-! ### A section that does not start with a symbol -/

/-- `.text` with one function, at its second instruction. -/
def paddedText : ELFObject where
  entry := 0
  code_sections := [⟨".text", 0x400000, [0, 0, 0, 0, 0, 0, 0, 0], 8, rfl, by decide⟩]
  func_entrys := [⟨0x400004, "main"⟩]
  disjoint := List.pairwise_singleton _ _
  lies e he := by
    rw [List.mem_singleton.mp he]
    exact ⟨_, List.mem_singleton.mpr rfl, by decide⟩

theorem paddedText_step :
    paddedText.step (paddedText.func_entrys, .init) = .inr (.error .pastSymbols) := rfl

/-- The inner loop goes on past the end of the symbols. -/
theorem paddedText_pastSymbols :
    Machine.Halts paddedText.step (paddedText.func_entrys, .init) (.error .pastSymbols) ∧
      ¬ paddedText.SetsPartition := by
  refine ⟨.of_stop paddedText_step, fun h => ?_⟩
  obtain ⟨tm, hhalts, -⟩ := h paddedText.func_entrys ⟨.refl _, List.pairwise_singleton _ _⟩
  cases Machine.halts_unique hhalts (.of_stop paddedText_step)

end ELFObject

end Elfconv
