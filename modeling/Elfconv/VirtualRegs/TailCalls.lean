/-
Elfconv/VirtualRegs/TailCalls.lean

Registers that are passed on through tail calls.

`CalPassedCallerRegForBJump` walks the graph of the tail calls in post-order and adds the
registers passed to the callees to those passed to the caller.  A function whose callees
are not all finished goes back on the stack; in a cycle of tail calls every function waits
for the next one and the walk never ends.  Without a cycle it ends with what is reachable
(`passed_iff`).
-/
import Elfconv.Lib.Component
import Elfconv.Lib.Machine
import Elfconv.Lib.PostOrder
import Elfconv.VirtualRegs.RegMap

namespace Elfconv

open Component

/-- `b_jump_callees_map`, with the functions that have an entry in the order of the
iteration. -/
structure BJumpCallees (φ : Type) where
  b_jump_callees_map : φ → Option (List φ)
  callers : List φ
  mem_callers : ∀ t_fun, t_fun ∈ callers ↔ (b_jump_callees_map t_fun).isSome = true

/-- `insert` for each entry of the other map: an entry stays. -/
def EcvRegMap.insertAll (m m' : EcvRegMap) : EcvRegMap := fun er =>
  match m er with
  | some erc => some erc
  | none => m' er

/-- `passed_caller_reg_map` of every lifted function, with the stack and the finished set. -/
structure PassedState (φ : Type) where
  passed_caller_reg_map : φ → EcvRegMap
  func_stack : List φ
  finished : Finset φ

variable {φ : Type} [DecidableEq φ]

namespace BJumpCallees

/-- The registers of all callees are added. -/
def mergeCallees (passed : φ → EcvRegMap) (t_fun : φ) (callees : List φ) : φ → EcvRegMap :=
  Function.update passed t_fun
    (callees.foldl (fun m callee => m.insertAll (passed callee)) (passed t_fun))

/-- One iteration; the result is the map when the stack is empty. -/
def step (c : BJumpCallees φ) (s : PassedState φ) : PassedState φ ⊕ (φ → EcvRegMap) :=
  match s.func_stack with
  | [] => .inr s.passed_caller_reg_map
  | t_fun :: func_stack =>
      if t_fun ∈ s.finished then .inl { s with func_stack := func_stack }
      else
        match c.b_jump_callees_map t_fun with
        | some callees =>
            -- a function waits on the stack below those of its callees that are not finished
            if callees.all (· ∈ s.finished) then
              .inl
                { passed_caller_reg_map := mergeCallees s.passed_caller_reg_map t_fun callees
                  func_stack := func_stack
                  finished := insert t_fun s.finished }
            else
              .inl
                { s with
                  func_stack := (callees.filter (· ∉ s.finished)).reverse ++ t_fun :: func_stack }
        | none => .inl { s with func_stack := func_stack, finished := insert t_fun s.finished }

/-- The callers are pushed one after the other. -/
def start (c : BJumpCallees φ) (passed : φ → EcvRegMap) : PassedState φ where
  passed_caller_reg_map := passed
  func_stack := c.callers.reverse
  finished := ∅

/-- Function `t_fun` has a tail call to `callee`. -/
def Edge (c : BJumpCallees φ) (t_fun callee : φ) : Prop :=
  ∃ callees, c.b_jump_callees_map t_fun = some callees ∧ callee ∈ callees

/-- The walk ends, and a function is passed the registers that the functions reachable from
it by tail calls were passed. -/
def PropagatesExactly (c : BJumpCallees φ) (passed : φ → EcvRegMap) : Prop :=
  ∃ passed', Machine.Halts c.step (c.start passed) passed' ∧
    ∀ t_fun er, (passed' t_fun).contains er = true ↔
      ∃ g, Reach c.Edge t_fun g ∧ (passed g).contains er = true

variable {c : BJumpCallees φ} {passed : φ → EcvRegMap} {s : PassedState φ} {t_fun : φ}
  {rest : List φ}

/-! ### What one iteration does -/

theorem contains_insertAll (m m' : EcvRegMap) (er : EcvReg) :
    (m.insertAll m').contains er = true ↔ m.contains er = true ∨ m'.contains er = true := by
  simp only [EcvRegMap.contains, EcvRegMap.insertAll]
  cases m er with
  | none => exact (or_iff_right Bool.false_ne_true).symm
  | some erc => exact iff_of_true rfl (.inl rfl)

omit [DecidableEq φ] in
/-- The merged map of a function has the registers of the function and its callees. -/
theorem contains_mergeCallees (callees : List φ) (m : EcvRegMap) (er : EcvReg) :
    (callees.foldl (fun m callee => m.insertAll (passed callee)) m).contains er = true ↔
      m.contains er = true ∨ ∃ callee ∈ callees, (passed callee).contains er = true := by
  induction callees generalizing m with
  | nil => exact (or_iff_left fun ⟨callee, h, _⟩ => absurd h List.not_mem_nil).symm
  | cons callee callees ih =>
      rw [List.foldl_cons]
      refine (ih _).trans ?_
      rw [contains_insertAll, or_assoc]
      simp only [List.mem_cons, exists_eq_or_imp]

/-- **An iteration stops, drops a finished function, finishes one whose callees are
finished, or pushes the unfinished callees.** -/
theorem step_cases (c : BJumpCallees φ) (s : PassedState φ) :
    (s.func_stack = [] ∧ c.step s = .inr s.passed_caller_reg_map) ∨
      ∃ t_fun rest, s.func_stack = t_fun :: rest ∧
        ((t_fun ∈ s.finished ∧ c.step s = .inl { s with func_stack := rest }) ∨
          (t_fun ∉ s.finished ∧ (∀ callee, c.Edge t_fun callee → callee ∈ s.finished) ∧
            ∃ passed', c.step s = .inl ⟨passed', rest, insert t_fun s.finished⟩ ∧
              (∀ g, g ≠ t_fun → passed' g = s.passed_caller_reg_map g) ∧
              ∀ er, (passed' t_fun).contains er = true ↔
                (s.passed_caller_reg_map t_fun).contains er = true ∨
                  ∃ callee, c.Edge t_fun callee ∧
                    (s.passed_caller_reg_map callee).contains er = true) ∨
          ∃ succs, t_fun ∉ s.finished ∧ succs ≠ [] ∧
            (∀ callee, callee ∈ succs ↔ c.Edge t_fun callee ∧ callee ∉ s.finished) ∧
            c.step s = .inl { s with func_stack := succs ++ t_fun :: rest }) := by
  rcases hs : s.func_stack with - | ⟨t_fun, rest⟩
  · exact .inl ⟨rfl, by simp only [step, hs]⟩
  · refine .inr ⟨t_fun, rest, rfl, ?_⟩
    -- the cases are those of the loop body: finished, no callees, all callees finished, or pushed
    by_cases hfin : t_fun ∈ s.finished
    · exact .inl ⟨hfin, by simp only [step, hs, if_pos hfin]⟩
    · cases hmap : c.b_jump_callees_map t_fun with
      | none =>
          have hedge : ∀ callee, ¬ c.Edge t_fun callee := by
            rintro callee ⟨callees, hcallees, -⟩
            rw [hmap] at hcallees
            cases hcallees
          refine .inr (.inl ⟨hfin, fun callee h => absurd h (hedge callee),
            s.passed_caller_reg_map, by simp only [step, hs, if_neg hfin, hmap],
            fun _ _ => rfl, fun er => ?_⟩)
          refine (or_iff_left ?_).symm
          rintro ⟨callee, h, -⟩
          exact hedge callee h
      | some callees =>
          have hedge : ∀ callee, c.Edge t_fun callee ↔ callee ∈ callees := by
            intro callee
            unfold Edge
            rw [hmap]
            simp only [Option.some.injEq, exists_eq_left']
          by_cases hall : callees.all (· ∈ s.finished) = true
          · refine .inr (.inl ⟨hfin, fun callee h => ?_,
              mergeCallees s.passed_caller_reg_map t_fun callees,
              by simp only [step, hs, if_neg hfin, hmap, if_pos hall],
              fun g hg => Function.update_of_ne hg _ _, fun er => ?_⟩)
            · simpa using List.all_eq_true.mp hall callee ((hedge callee).mp h)
            · rw [mergeCallees, Function.update_self, contains_mergeCallees]
              simp only [hedge]
          · refine .inr (.inr ⟨(callees.filter (· ∉ s.finished)).reverse, hfin, ?_, ?_,
              by simp only [step, hs, if_neg hfin, hmap, if_neg hall]⟩)
            · intro hnil
              refine hall (List.all_eq_true.mpr fun callee hcallee => ?_)
              have := List.filter_eq_nil_iff.mp (List.reverse_eq_nil_iff.mp hnil) callee hcallee
              simpa using this
            · intro callee
              rw [List.mem_reverse, List.mem_filter, hedge, decide_eq_true_eq]

/-! ### Without a cycle -/

/-- The finished functions are closed under tail calls and have what they can reach. -/
structure PassedInv (c : BJumpCallees φ) (passed : φ → EcvRegMap) (s : PassedState φ) :
    Prop where
  closed : ∀ t_fun ∈ s.finished, ∀ callee, c.Edge t_fun callee → callee ∈ s.finished
  done : ∀ t_fun ∈ s.finished, ∀ er, (s.passed_caller_reg_map t_fun).contains er = true ↔
    ∃ g, Reach c.Edge t_fun g ∧ (passed g).contains er = true
  rest : ∀ t_fun ∉ s.finished, s.passed_caller_reg_map t_fun = passed t_fun
  callers : ∀ t_fun ∈ c.callers, t_fun ∈ s.finished ∨ t_fun ∈ s.func_stack

omit [DecidableEq φ] in
theorem passedInv_start (c : BJumpCallees φ) (passed : φ → EcvRegMap) :
    PassedInv c passed (c.start passed) where
  closed _ h := absurd h (Finset.notMem_empty _)
  done _ h := absurd h (Finset.notMem_empty _)
  rest _ _ := rfl
  callers _ h := .inr (List.mem_reverse.mpr h)

omit [DecidableEq φ] in
/-- What a function reaches is its own and what its callees reach. -/
theorem exists_reach_iff {P : φ → Prop} :
    (∃ g, Reach c.Edge t_fun g ∧ P g) ↔
      P t_fun ∨ ∃ callee, c.Edge t_fun callee ∧ ∃ g, Reach c.Edge callee g ∧ P g := by
  constructor
  · rintro ⟨g, hg, hP⟩
    rcases Relation.ReflTransGen.cases_head hg with rfl | ⟨callee, hcallee, hreach⟩
    · exact .inl hP
    · exact .inr ⟨callee, hcallee, g, hreach, hP⟩
  · rintro (hP | ⟨callee, hcallee, g, hreach, hP⟩)
    · exact ⟨t_fun, .refl, hP⟩
    · exact ⟨g, hreach.head hcallee, hP⟩

/-- A function whose callees are finished gets what it reaches. -/
theorem PassedInv.finish (hi : PassedInv c passed s) (hs : s.func_stack = t_fun :: rest)
    (hfin : t_fun ∉ s.finished) (hall : ∀ callee, c.Edge t_fun callee → callee ∈ s.finished)
    {passed' : φ → EcvRegMap}
    (hframe : ∀ g, g ≠ t_fun → passed' g = s.passed_caller_reg_map g)
    (hmerged : ∀ er, (passed' t_fun).contains er = true ↔
      (s.passed_caller_reg_map t_fun).contains er = true ∨
        ∃ callee, c.Edge t_fun callee ∧
          (s.passed_caller_reg_map callee).contains er = true) :
    PassedInv c passed ⟨passed', rest, insert t_fun s.finished⟩ := by
  refine ⟨fun f hf callee hedge => ?_, fun f hf er => ?_, fun f hf => ?_, fun f hf => ?_⟩
  · refine Finset.mem_insert_of_mem ?_
    rcases Finset.mem_insert.mp hf with rfl | hf
    · exact hall callee hedge
    · exact hi.closed f hf callee hedge
  -- what the function reaches is what it calls and what these reach
  · rcases Finset.mem_insert.mp hf with rfl | hf
    · rw [hmerged er, exists_reach_iff, hi.rest f hfin]
      refine or_congr_right (exists_congr fun callee => and_congr_right fun hedge => ?_)
      exact hi.done callee (hall callee hedge) er
    · have heq : passed' f = s.passed_caller_reg_map f := hframe f fun e => hfin (e ▸ hf)
      simp only [heq]
      exact hi.done f hf er
  · rw [Finset.mem_insert, not_or] at hf
    exact (hframe f hf.1).trans (hi.rest f hf.2)
  · rcases hi.callers f hf with hfin | hstack
    · exact .inl (Finset.mem_insert_of_mem hfin)
    · rw [hs] at hstack
      rcases List.mem_cons.mp hstack with rfl | hstack
      · exact .inl (Finset.mem_insert_self _ _)
      · exact .inr hstack

omit [DecidableEq φ] in
/-- A finished function leaves the stack. -/
theorem PassedInv.drop (hi : PassedInv c passed s) (hs : s.func_stack = t_fun :: rest)
    (hfin : t_fun ∈ s.finished) : PassedInv c passed { s with func_stack := rest } where
  closed := hi.closed
  done := hi.done
  rest := hi.rest
  callers f hf := by
    rcases hi.callers f hf with hf | hstack
    · exact .inl hf
    · rw [hs] at hstack
      rcases List.mem_cons.mp hstack with rfl | hstack
      · exact .inl hfin
      · exact .inr hstack

omit [DecidableEq φ] in
theorem PassedInv.push (hi : PassedInv c passed s) (hs : s.func_stack = t_fun :: rest)
    (succs : List φ) : PassedInv c passed { s with func_stack := succs ++ t_fun :: rest } where
  closed := hi.closed
  done := hi.done
  rest := hi.rest
  callers f hf := (hi.callers f hf).imp_right fun hstack =>
    List.mem_append_right _ (hs ▸ hstack)

/-- With an empty stack every function has what it reaches. -/
theorem PassedInv.exact (hi : PassedInv c passed s) (hs : s.func_stack = []) (t_fun : φ)
    (er : EcvReg) : (s.passed_caller_reg_map t_fun).contains er = true ↔
      ∃ g, Reach c.Edge t_fun g ∧ (passed g).contains er = true := by
  by_cases hfin : t_fun ∈ s.finished
  · exact hi.done t_fun hfin er
  · -- a function that was never pushed has no tail calls
    have hedge : ∀ callee, ¬ c.Edge t_fun callee := by
      rintro callee ⟨callees, hmap, -⟩
      have hcaller := (c.mem_callers t_fun).mpr (by rw [hmap]; rfl)
      have hstack := (hi.callers t_fun hcaller).resolve_left hfin
      rw [hs] at hstack
      cases hstack
    rw [hi.rest t_fun hfin, exists_reach_iff]
    refine (or_iff_left ?_).symm
    rintro ⟨callee, h, -⟩
    exact hedge callee h

theorem propagates_of_acyclic [Fintype φ] (c : BJumpCallees φ) (passed : φ → EcvRegMap)
    (hacyclic : ∀ f, ¬ Relation.TransGen c.Edge f f) : c.PropagatesExactly passed := by
  refine Machine.halts_of_measure (I := PassedInv c passed) PostOrder.Smaller PostOrder.smaller_wf
    (fun s => PostOrder.measure c.Edge s.finished s.func_stack) (fun s s' hi hstep => ?_)
    (fun s r hi hstep => ?_) (passedInv_start c passed)
  -- a step drops the top, finishes it, or pushes the callees that are not finished
  · rcases c.step_cases s with ⟨-, he⟩ | ⟨t_fun, rest, hs, ⟨hfin, he⟩ |
      ⟨hfin, hall, passed', he, hframe, hmerged⟩ | ⟨succs, hfin, hne, hsuccs, he⟩⟩
    · rw [he] at hstep
      cases hstep
    · rw [he] at hstep
      cases hstep
      rw [hs]
      exact ⟨hi.drop hs hfin, PostOrder.smaller_drop hfin⟩
    · rw [he] at hstep
      cases hstep
      exact ⟨hi.finish hs hfin hall hframe hmerged, PostOrder.smaller_finish hfin _⟩
    · rw [he] at hstep
      cases hstep
      rw [hs]
      exact ⟨hi.push hs succs,
        PostOrder.smaller_push hacyclic hfin (fun a ha => (hsuccs a).mp ha) hne⟩
  · rcases c.step_cases s with ⟨hs, he⟩ | ⟨t_fun, rest, hs, ⟨-, he⟩ | ⟨-, -, passed', he, -⟩ |
      ⟨succs, -, -, -, he⟩⟩
    · rw [he] at hstep
      cases hstep
      exact hi.exact hs
    all_goals
      rw [he] at hstep
      cases hstep

/-! ### With a cycle -/

/-- No function of a cycle is ever finished, and one of them stays on the stack. -/
structure StuckInv (c : BJumpCallees φ) (f : φ) (s : PassedState φ) : Prop where
  unfinished : ∀ t_fun ∈ s.finished, ¬ Relation.TransGen c.Edge t_fun t_fun
  waiting : f ∈ s.func_stack

/-- **A walk that meets a cycle does not end.** -/
theorem not_halts_of_cycle {f : φ} (hcycle : Relation.TransGen c.Edge f f)
    (passed : φ → EcvRegMap) (passed' : φ → EcvRegMap) :
    ¬ Machine.Halts c.step (c.start passed) passed' := by
  intro hhalts
  -- a function of the cycle always waits on the stack, and none of them is finished
  refine Machine.inv_of_halts (I := StuckInv c f) (Q := fun _ => False)
    (fun s s' hi hstep => ?_) (fun s r hi hstep => ?_) ⟨?_, ?_⟩ hhalts
  · rcases c.step_cases s with ⟨-, he⟩ | ⟨t_fun, rest, hs, ⟨hfin, he⟩ |
      ⟨hfin, hall, passed', he, -⟩ | ⟨succs, -, -, -, he⟩⟩
    · rw [he] at hstep
      cases hstep
    · rw [he] at hstep
      cases hstep
      have hwait := hi.waiting
      rw [hs] at hwait
      refine ⟨hi.unfinished, (List.mem_cons.mp hwait).resolve_left ?_⟩
      rintro rfl
      exact hi.unfinished f hfin hcycle
    · -- the next function of a cycle would be finished as well
      have hnocycle : ¬ Relation.TransGen c.Edge t_fun t_fun := by
        intro hc
        obtain ⟨callee, hedge, hback⟩ := Relation.TransGen.head'_iff.mp hc
        exact hi.unfinished callee (hall callee hedge)
          (Relation.TransGen.tail' hback hedge)
      rw [he] at hstep
      cases hstep
      have hwait := hi.waiting
      rw [hs] at hwait
      refine ⟨fun g hg => ?_, (List.mem_cons.mp hwait).resolve_left ?_⟩
      · rcases Finset.mem_insert.mp hg with rfl | hg
        · exact hnocycle
        · exact hi.unfinished g hg
      · rintro rfl
        exact hnocycle hcycle
    · rw [he] at hstep
      cases hstep
      exact ⟨hi.unfinished, List.mem_append_right _ (hs ▸ hi.waiting)⟩
  · rcases c.step_cases s with ⟨hs, -⟩ | ⟨t_fun, rest, hs, ⟨-, he⟩ | ⟨-, -, passed', he, -⟩ |
      ⟨succs, -, -, -, he⟩⟩
    · have hwait := hi.waiting
      rw [hs] at hwait
      cases hwait
    all_goals
      rw [he] at hstep
      cases hstep
  · exact fun g hg => absurd hg (Finset.notMem_empty g)
  · obtain ⟨callee, ⟨callees, hmap, -⟩, -⟩ := Relation.TransGen.head'_iff.mp hcycle
    exact List.mem_reverse.mpr ((c.mem_callers f).mpr (by rw [hmap]; rfl))

/-- **The registers are propagated exactly when no function reaches itself by tail
calls.** -/
theorem passed_iff [Fintype φ] (c : BJumpCallees φ) (passed : φ → EcvRegMap) :
    c.PropagatesExactly passed ↔ ∀ f, ¬ Relation.TransGen c.Edge f f := by
  constructor
  · rintro ⟨passed', hhalts, -⟩ f hcycle
    exact not_halts_of_cycle hcycle passed passed' hhalts
  · exact propagates_of_acyclic c passed

/-- Two functions that end in a tail call of each other. -/
def mutualTailCalls : BJumpCallees Bool where
  b_jump_callees_map f := some [!f]
  callers := [false, true]
  mem_callers := by decide

theorem mutual_not_propagated : ¬ mutualTailCalls.PropagatesExactly fun _ _ => none := by
  have hedge : ∀ f, mutualTailCalls.Edge f !f := fun f => ⟨[!f], rfl, List.mem_singleton.mpr rfl⟩
  rintro ⟨passed', hhalts, -⟩
  exact not_halts_of_cycle (.tail (.single (hedge false)) (hedge true)) _ passed' hhalts

end BJumpCallees

end Elfconv
