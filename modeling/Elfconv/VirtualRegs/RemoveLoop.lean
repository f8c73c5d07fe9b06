/-
Elfconv/VirtualRegs/RemoveLoop.lean

`RemoveLoop` computes the strongly connected components.

The search keeps a stack of snapshots: a bag, the path to it and the bags visited on the
way.  A bag is finished only when it is searched again after all its children, so the order
of the search is kept in a log of the stack entries and the bags that were expanded.  Every
child of an expanded bag stands before it in the log or is finished (`LoopInv.settled`).
When the stack is empty the log has no cycle and holds all bags.
-/
import Elfconv.VirtualRegs.Merge
import Mathlib.Algebra.Order.BigOperators.Group.List
import Mathlib.Algebra.Order.Ring.Nat
import Mathlib.Data.Prod.Lex

namespace Elfconv

open Component

variable {β : Type} [Fintype β] [DecidableEq β] {f : BlockGraph β} {order : PtrOrder β}

namespace RemoveLoop

open BagGraph

variable {g : BagGraph β} {target_bag : β}

/-! ### Closing a loop -/

/-- Every bag of a path, last bag first, is reached from those before it on the path. -/
def Chain (f : BlockGraph β) (path : List β) : Prop :=
  path.Pairwise fun newer older => Reach f.Edge older newer

/-- The visited bags are on the path. -/
def OnPath (g : BagGraph β) (path : List β) (visited : Finset β) : Prop :=
  ∀ v ∈ visited, ∃ p ∈ path, g.GetTrueBag p = g.GetTrueBag v

/-- What `closeLoop` returns: the bags it took from the end of the path, all of the component
of the target, were merged into it, or the last bag of the path was the target already. -/
structure Closed (f : BlockGraph β) (target_bag : β) (g : BagGraph β) (path : List β)
    (visited : Finset β) (g' : BagGraph β) (path' : List β) (visited' : Finset β) : Prop where
  partition : Partition f g'
  target : g'.converted_bag target_bag = target_bag
  merged : ∃ F : β → β, g'.GetTrueBag = F ∘ g.GetTrueBag ∧
    ∀ b, F b = b ∨ F b = target_bag ∧ Mutual f.Edge b target_bag
  dropped : ∃ dropped q, path = dropped ++ q :: path' ∧ g'.GetTrueBag q = target_bag ∧
    (∀ p ∈ dropped, g.GetTrueBag p ≠ target_bag ∧ g'.GetTrueBag p = target_bag) ∧
    ∀ b, g'.GetTrueBag b = g.GetTrueBag b ∨ ∃ p ∈ dropped, g.GetTrueBag p = g.GetTrueBag b
  on_path : ∀ v ∈ visited', v = target_bag ∨ ∃ p ∈ path', g'.GetTrueBag p = v
  still_visited : ∀ v ∈ visited, g'.GetTrueBag v = v → v ∈ visited'
  is_loop : ∀ b, (g'.node b).is_loop = (g.node b).is_loop
  progress : g'.bag_num < g.bag_num ∨
    g' = g ∧ visited' = visited ∧ ∃ q, path = q :: path' ∧ g.GetTrueBag q = target_bag

theorem Closed.suffix {path path' : List β} {visited visited' : Finset β} {g' : BagGraph β}
    (hc : Closed f target_bag g path visited g' path' visited') : path' <:+ path := by
  obtain ⟨dropped, q, hpath, -⟩ := hc.dropped
  exact ⟨dropped ++ [q], by rw [hpath, List.append_assoc, List.singleton_append]⟩

theorem closeLoop_spec (order : PtrOrder β) {path : List β} (visited deleted : Finset β)
    (h : Partition f g) (ht : g.converted_bag target_bag = target_bag) (hchain : Chain f path)
    (hreach : ∀ p ∈ path, Reach f.Edge p target_bag)
    (hback : ∃ q ∈ path, g.GetTrueBag q = target_bag)
    (hvisited : ∀ v ∈ visited, v = target_bag ∨ ∃ p ∈ path, g.GetTrueBag p = v)
    (hdeleted : ∀ d ∈ deleted, g.converted_bag d ≠ d) :
    ∃ g' path' visited',
      closeLoop order target_bag g path visited deleted = some (g', path', visited') ∧
        Closed f target_bag g path visited g' path' visited' := by
  induction path generalizing g visited deleted with
  | nil =>
      obtain ⟨q, hq, -⟩ := hback
      cases hq
  | cons p path ih =>
      rw [closeLoop]
      by_cases hp : target_bag = g.GetTrueBag p
      · -- the path is back at the target
        refine ⟨g, path, visited, if_pos hp, h, ht, ⟨id, rfl, fun b => .inl rfl⟩,
          ⟨[], p, rfl, hp.symm, fun _ hb => absurd hb List.not_mem_nil, fun _ => .inl rfl⟩,
          fun v hv => ?_, fun v hv _ => hv, fun _ => rfl, .inr ⟨rfl, rfl, p, rfl, hp.symm⟩⟩
        rcases hvisited v hv with hv | ⟨p', hp', rfl⟩
        · exact .inl hv
        · rcases List.mem_cons.mp hp' with rfl | hp'
          · exact .inl hp.symm
          · exact .inr ⟨p', hp', rfl⟩
      · have hm := h.true_getTrueBag p
        have hne : g.GetTrueBag p ≠ target_bag := Ne.symm hp
        have hnotdel : g.GetTrueBag p ∉ deleted := fun hd => hdeleted _ hd hm
        rw [if_neg hp, if_neg hnotdel]
        -- an older bag of the path is in the component of the target
        have hback' : ∃ q ∈ path, g.GetTrueBag q = target_bag := by
          obtain ⟨q, hq, hqt⟩ := hback
          rcases List.mem_cons.mp hq with rfl | hq
          · exact absurd hqt hne
          · exact ⟨q, hq, hqt⟩
        have hmutual : Mutual f.Edge (g.GetTrueBag p) target_bag := by
          obtain ⟨q, hq, hqt⟩ := hback'
          have hqp : Reach f.Edge q p := (List.pairwise_cons.mp hchain).1 q hq
          have hqc := h.component q
          rw [hqt] at hqc
          exact (h.component p).symm.trans ⟨hreach p List.mem_cons_self, hqc.2.trans hqp⟩
        have hrep := translate_getTrueBag h ht hm hne order
        have htrue : ∀ b, b ≠ g.GetTrueBag p → g.converted_bag b = b →
            (g.translate order target_bag (g.GetTrueBag p)).converted_bag b = b :=
          fun b hb hbt => (translate_true_iff hne).mpr ⟨hbt, hb⟩
        obtain ⟨g', path', visited', hclose, hc⟩ := ih (visited.erase (g.GetTrueBag p))
          (insert (g.GetTrueBag p) deleted) (h.translate ht hm hne hmutual) (htrue _ hne.symm ht)
          (List.pairwise_cons.mp hchain).2
          (fun p' hp' => hreach p' (List.mem_cons_of_mem p hp'))
          (by
            obtain ⟨q, hq, hqt⟩ := hback'
            exact ⟨q, hq, by rw [hrep, hqt, collapse_of_ne hne.symm]⟩)
          (by
            intro v hv
            obtain ⟨hvp, hv⟩ := Finset.mem_erase.mp hv
            rcases hvisited v hv with hv | ⟨p', hp', rfl⟩
            · exact .inl hv
            · rcases List.mem_cons.mp hp' with rfl | hp'
              · exact absurd rfl hvp
              · exact .inr ⟨p', hp', by rw [hrep, collapse_of_ne hvp]⟩)
          (by
            intro d hd hdt
            obtain ⟨hdt, hdp⟩ := (translate_true_iff hne).mp hdt
            rcases Finset.mem_insert.mp hd with rfl | hd
            · exact hdp rfl
            · exact hdeleted d hd hdt)
        obtain ⟨F, hF, hmoved⟩ := hc.merged
        have htF : F target_bag = target_bag := (hmoved target_bag).elim id And.left
        have htp : g'.GetTrueBag p = target_bag := by
          rw [hF, Function.comp_apply, hrep, collapse_moved, htF]
        refine ⟨g', path', visited', hclose, hc.partition, hc.target, ?_, ?_, hc.on_path,
          fun v hv hvt => ?_, fun b => ?_, .inl ?_⟩
        · refine ⟨F ∘ collapse target_bag (g.GetTrueBag p), ?_, fun b => ?_⟩
          · rw [hF]
            funext b
            exact congrArg F (hrep b)
          · by_cases hb : b = g.GetTrueBag p
            · rw [Function.comp_apply, hb, collapse_moved, htF]
              exact .inr ⟨rfl, hmutual⟩
            · rw [Function.comp_apply, collapse_of_ne hb]
              exact hmoved b
        · -- the bag that was taken from the path, and those after it
          obtain ⟨dropped, q, rfl, hq, hdrop, hsame⟩ := hc.dropped
          have hcollapse : ∀ b, g.GetTrueBag b = g.GetTrueBag p ∨
              (g.translate order target_bag (g.GetTrueBag p)).GetTrueBag b = g.GetTrueBag b := by
            intro b
            rw [hrep]
            exact or_iff_not_imp_left.mpr collapse_of_ne
          refine ⟨p :: dropped, q, rfl, hq, fun d hd => ?_, fun b => ?_⟩
          · rcases List.mem_cons.mp hd with rfl | hd
            · exact ⟨hne, htp⟩
            · refine ⟨fun hdt => (hdrop d hd).1 ?_, (hdrop d hd).2⟩
              rw [hrep, hdt, collapse_of_ne hne.symm]
          · rcases hcollapse b with hb | hb
            · exact .inr ⟨p, List.mem_cons_self, hb.symm⟩
            · refine (hsame b).imp (·.trans hb) fun ⟨d, hd, hdb⟩ => ?_
              refine ⟨d, List.mem_cons_of_mem p hd, ?_⟩
              rcases hcollapse d with hdp | hdd
              · exact absurd (by rw [hrep, hdp, collapse_moved]) (hdrop d hd).1
              · rw [← hdd, hdb, hb]
        · refine hc.still_visited v (Finset.mem_erase.mpr ⟨?_, hv⟩) hvt
          rintro rfl
          exact hne (hvt.symm.trans (by rw [hF, Function.comp_apply, hrep, h.getTrueBag_idem,
            collapse_moved, htF]))
        · rw [hc.is_loop b]
          exact translate_field (·.is_loop) fun _ _ _ _ _ _ _ => rfl
        · -- the merged bag is counted no more
          have hpos : 0 < g.bag_num := by
            rw [h.bag_num]
            exact Finset.card_pos.mpr ⟨target_bag, by simpa using ht⟩
          have hnum : (g.translate order target_bag (g.GetTrueBag p)).bag_num = g.bag_num - 1 :=
            bag_num_translate
          rcases hc.progress with hlt | ⟨rfl, -, -⟩
          · omega
          · omega

/-! ### The log of the search -/

/-- An entry of the stack, or a bag that was expanded. -/
inductive LogEntry (β : Type)
  | pending (e : SearchEntry β)
  | expanded (b : β)

namespace LogEntry

/-- The bag that the entry stands for by now. -/
def bag (rep : β → β) : LogEntry β → β
  | pending e => rep e.target
  | expanded b => b

/-- The children of an expanded bag stand before it. -/
def Needs (f : BlockGraph β) (rep : β → β) : LogEntry β → β → Prop
  | pending _, _ => False
  | expanded x, b => Between f.Edge rep x b

/-- The entry of the stack, nothing for a bag that is finished. -/
def entry? : LogEntry β → Option (SearchEntry β)
  | pending e => some e
  | expanded _ => none

/-- Only an expanded bag of the class of `b` is dropped when `b` is searched again. -/
def keeps (F : β → β) (b : β) : LogEntry β → Bool
  | pending _ => true
  | expanded x => F x ≠ b

end LogEntry

/-- A snapshot of the search: its path leads to its target, past all visited bags. -/
structure EntryInv (f : BlockGraph β) (g : BagGraph β) (e : SearchEntry β) : Prop where
  chain : Chain f (e.target :: e.pre_path)
  on_path : OnPath g e.pre_path e.visited

/-- Of the log before the stack entries that follow: no bag stands after its children. -/
abbrev InOrder (f : BlockGraph β) (g : BagGraph β) (base : β → Prop)
    (log : List (LogEntry β)) : Prop :=
  Settled (LogEntry.Needs f g.GetTrueBag) (LogEntry.bag g.GetTrueBag) base log

omit [Fintype β] [DecidableEq β] in
/-- Where no entry of the stack is left, every child is needed. -/
theorem LogEntry.needs_of_expanded (f : BlockGraph β) (rep : β → β) {log : List (LogEntry β)}
    (h : ∀ e, .pending e ∉ log) :
    ∀ i ∈ log, ∀ b, Between f.Edge rep (LogEntry.bag rep i) b → LogEntry.Needs f rep i b := by
  intro i hi b hb
  cases i with
  | pending e => exact absurd hi (h e)
  | expanded x => exact hb

/-- The invariant of the search: the bags partition the blocks, and those that are finished stand
before all that led to them. -/
structure LoopInv (f : BlockGraph β) (s : RemoveLoopState β) (fin : List β)
    (log : List (LogEntry β)) : Prop where
  partition : Partition f s.graph
  loops : ∀ b, s.graph.GetTrueBag b ≠ b → (s.graph.node (s.graph.GetTrueBag b)).is_loop = true
  stack : log.filterMap LogEntry.entry? = s.bag_stack
  finished : ∀ b, b ∈ s.finished ↔ b ∈ fin
  settled : InOrder f s.graph (fun _ => False) (fin.map .expanded ++ log)
  expanded_true : ∀ b, .expanded b ∈ fin.map .expanded ++ log → s.graph.converted_bag b = b
  entry : ∃ i ∈ fin.map .expanded ++ log,
    LogEntry.bag s.graph.GetTrueBag i = s.graph.GetTrueBag f.entry
  entries : ∀ e ∈ s.bag_stack, EntryInv f s.graph e

variable {s : RemoveLoopState β} {fin : List β} {log : List (LogEntry β)}

omit [Fintype β] [DecidableEq β] in
theorem pending_notMem_fin (fin : List β) (e : SearchEntry β) :
    .pending e ∉ fin.map LogEntry.expanded := by
  intro h
  obtain ⟨x, -, hx⟩ := List.mem_map.mp h
  cases hx

/-- The finished bags are closed under paths. -/
theorem LoopInv.finished_of_reach (h : LoopInv f s fin log) {a b : β} (ha : a ∈ fin)
    (hab : Reach f.Edge a b) : s.graph.GetTrueBag b ∈ fin := by
  have hfin := (settled_append.mp h.settled).1
  have hfull := LogEntry.needs_of_expanded f s.graph.GetTrueBag
    (pending_notMem_fin fin)
  have hat : s.graph.GetTrueBag a = a :=
    h.partition.true_iff.mp (h.expanded_true a
      (List.mem_append_left _ (List.mem_map_of_mem ha)))
  have hpath : Reach (Between f.Edge s.graph.GetTrueBag) a (s.graph.GetTrueBag b) := by
    have hbetween : Reach (Between f.Edge s.graph.GetTrueBag) (s.graph.GetTrueBag a)
        (s.graph.GetTrueBag b) := reach_between hab
    rwa [hat] at hbetween
  obtain ⟨i, hi, hib⟩ := hfin.closed_reach hfull ⟨.expanded a, List.mem_map_of_mem ha, rfl⟩ hpath
  obtain ⟨x, hx, rfl⟩ := List.mem_map.mp hi
  exact hib ▸ hx

/-- The top of the stack in the log. -/
theorem LoopInv.top (h : LoopInv f s fin log) {e : SearchEntry β} {rest : List (SearchEntry β)}
    (hs : s.bag_stack = e :: rest) :
    ∃ up down, log = up ++ .pending e :: down ∧ up.filterMap LogEntry.entry? = [] ∧
      down.filterMap LogEntry.entry? = rest := by
  obtain ⟨up, i, down, hlog, hup, hi, hdown⟩ :=
    List.filterMap_eq_cons_iff.mp (h.stack.trans hs)
  cases i with
  | expanded b => cases hi
  | pending e' =>
      cases hi
      exact ⟨up, down, hlog, List.filterMap_eq_nil_iff.mpr hup, hdown⟩

omit [Fintype β] [DecidableEq β] in
theorem filterMap_pending (es : List (SearchEntry β)) :
    (es.map LogEntry.pending).filterMap LogEntry.entry? = es := by
  rw [List.filterMap_map]
  exact List.filterMap_some

omit [Fintype β] [DecidableEq β] in
theorem filterMap_expanded (bags : List β) :
    (bags.map LogEntry.expanded).filterMap LogEntry.entry? = [] := by
  rw [List.filterMap_map]
  exact List.filterMap_eq_nil_iff.mpr fun _ _ => rfl

omit [Fintype β] in
theorem filterMap_keeps (F : β → β) (b : β) (log : List (LogEntry β)) :
    (log.filter (LogEntry.keeps F b)).filterMap LogEntry.entry? =
      log.filterMap LogEntry.entry? := by
  rw [List.filterMap_filter]
  congr 1
  funext i
  cases i with
  | pending e => rfl
  | expanded x => exact ite_self _

omit [Fintype β] [DecidableEq β] in
theorem exists_expanded {bags : List β} {rep : β → β} {b : β} :
    (∃ i ∈ bags.map LogEntry.expanded, LogEntry.bag rep i = b) ↔ b ∈ bags := by
  constructor
  · rintro ⟨i, hi, rfl⟩
    obtain ⟨x, hx, rfl⟩ := List.mem_map.mp hi
    exact hx
  · exact fun hb => ⟨.expanded b, List.mem_map_of_mem hb, rfl⟩

/-! ### What one iteration preserves -/

section Step

variable {e : SearchEntry β} {rest : List (SearchEntry β)} {up down : List (LogEntry β)}

/-- The top entry gives way to new ones and to bags that were expanded. -/
theorem LoopInv.replace (h : LoopInv f s fin (up ++ .pending e :: down))
    (hs : s.bag_stack = e :: rest) (hup : up.filterMap LogEntry.entry? = [])
    (hdown : down.filterMap LogEntry.entry? = rest) (es : List (SearchEntry β)) (bags : List β)
    (hes : ∀ e' ∈ es, EntryInv f s.graph e')
    (hbags : ∀ b ∈ bags, s.graph.converted_bag b = b)
    (horder : InOrder f s.graph (· ∈ fin) (es.map .pending ++ bags.map .expanded))
    (hstands : s.graph.GetTrueBag e.target ∈ fin ∨ s.graph.GetTrueBag e.target ∈ bags) :
    LoopInv f { s with bag_stack := es ++ rest } fin
      (es.map .pending ++ bags.map .expanded ++ (up ++ down)) := by
  have hbagsAt : ∀ b ∈ bags, ∃ i ∈ es.map LogEntry.pending ++ bags.map .expanded,
      LogEntry.bag s.graph.GetTrueBag i = b :=
    fun b hb => ⟨.expanded b, List.mem_append_right _ (List.mem_map_of_mem hb), rfl⟩
  refine ⟨h.partition, h.loops, ?_, h.finished, ?_, fun b hb => ?_, ?_, fun e' he' => ?_⟩
  · rw [List.filterMap_append, List.filterMap_append, List.filterMap_append, hup, hdown,
      filterMap_pending, filterMap_expanded, List.append_nil, List.nil_append]
  · -- the entry may go, since its bag is finished or stands in the log
    have hold := settled_append.mp h.settled
    unfold InOrder
    rw [settled_append, settled_append]
    simp only [exists_expanded, false_or] at hold ⊢
    refine ⟨hold.1, horder, (hold.2.mono fun b => .inl).erase (.inl ?_)⟩
    exact hstands.imp_right (hbagsAt _)
  -- an expanded bag is one of the new ones or was there
  · simp only [List.mem_append, List.mem_map] at hb
    rcases hb with ⟨x, hx, hxb⟩ | (⟨x, -, hxb⟩ | ⟨x, hx, hxb⟩) | hb
    · exact h.expanded_true b (List.mem_append_left _ (hxb ▸ List.mem_map_of_mem hx))
    · cases hxb
    · cases hxb
      exact hbags b hx
    · refine h.expanded_true b (List.mem_append_right _ ?_)
      exact hb.elim (List.mem_append_left _) fun hb =>
        List.mem_append_right _ (List.mem_cons_of_mem _ hb)
  · obtain ⟨i, hi, hif⟩ := h.entry
    simp only [List.mem_append, List.mem_cons] at hi
    rcases hi with hi | hi | rfl | hi
    · exact ⟨i, List.mem_append_left _ hi, hif⟩
    · exact ⟨i, by simp [hi], hif⟩
    · -- the entry that was taken from the stack
      rcases hstands with hb | hb
      · exact ⟨.expanded _, List.mem_append_left _ (List.mem_map_of_mem hb), hif⟩
      · obtain ⟨j, hj, hjb⟩ := hbagsAt _ hb
        exact ⟨j, List.mem_append_right _ (List.mem_append_left _ hj), hjb.trans hif⟩
    · exact ⟨i, by simp [hi], hif⟩
  -- what is left on the stack was there
  · rcases List.mem_append.mp he' with he' | he'
    · exact hes e' he'
    · exact h.entries e' (hs ▸ List.mem_cons_of_mem e he')

/-- All children of the target are finished, or the target itself. -/
theorem LoopInv.finish (h : LoopInv f s fin (up ++ .pending e :: down))
    (hs : s.bag_stack = e :: rest) (hup : up.filterMap LogEntry.entry? = [])
    (hdown : down.filterMap LogEntry.entry? = rest)
    (hchildren : ∀ b, Between f.Edge s.graph.GetTrueBag (s.graph.GetTrueBag e.target) b → b ∈ fin) :
    LoopInv f
      { s with bag_stack := rest, finished := insert (s.graph.GetTrueBag e.target) s.finished }
      (fin ++ [s.graph.GetTrueBag e.target]) (up ++ down) := by
  have hnew := h.replace hs hup hdown [] [s.graph.GetTrueBag e.target] (by simp)
    (fun b hb => by
      rw [List.mem_singleton.mp hb]
      exact h.partition.true_getTrueBag _)
    ⟨hchildren, trivial⟩ (.inr (List.mem_singleton.mpr rfl))
  have hlog : (fin ++ [s.graph.GetTrueBag e.target]).map LogEntry.expanded ++ (up ++ down) =
      fin.map .expanded ++ (([] : List (SearchEntry β)).map LogEntry.pending ++
        [s.graph.GetTrueBag e.target].map .expanded ++ (up ++ down)) := by simp
  refine ⟨hnew.partition, hnew.loops, ?_, fun b => ?_, ?_, ?_, ?_, hnew.entries⟩
  · rw [List.filterMap_append, hup, hdown, List.nil_append]
  · simp only [Finset.mem_insert, h.finished, List.mem_append, List.mem_singleton, or_comm]
  · rw [hlog]
    exact hnew.settled
  · rw [hlog]
    exact hnew.expanded_true
  · rw [hlog]
    exact hnew.entry

theorem mem_newChildren {c : β} :
    c ∈ newChildren order s target_bag ↔
      (∃ c' ∈ (s.graph.node target_bag).children, s.graph.GetTrueBag c' = c) ∧
        c ∉ s.finished ∧ c ≠ target_bag := by
  simp only [newChildren, List.mem_filter, List.mem_map, PtrOrder.mem_iter, decide_eq_true_eq]

/-- A bag that has no new children leads to finished bags only. -/
theorem LoopInv.mem_of_newChildren_nil {log : List (LogEntry β)} (h : LoopInv f s fin log)
    {x : β} (hnew : newChildren order s x = []) (b : β)
    (hb : Between f.Edge s.graph.GetTrueBag x b) : b ∈ fin := by
  obtain ⟨c, hc, rfl⟩ := h.partition.child_complete _ b hb
  by_contra hnot
  have hmem : _ ∈ newChildren order s _ := mem_newChildren.mpr
    ⟨⟨c, hc, rfl⟩, fun hf => hnot ((h.finished _).mp hf), hb.1.symm⟩
  rw [hnew] at hmem
  cases hmem

/-- The children that are not finished are searched next. -/
theorem LoopInv.expand (order : PtrOrder β) (h : LoopInv f s fin (up ++ .pending e :: down))
    (hs : s.bag_stack = e :: rest) (hup : up.filterMap LogEntry.entry? = [])
    (hdown : down.filterMap LogEntry.entry? = rest) (es : List (SearchEntry β))
    (hes : ∀ e' ∈ es, e'.target ∈ newChildren order s (s.graph.GetTrueBag e.target) ∧
      e'.pre_path = s.graph.GetTrueBag e.target :: e.pre_path ∧
      e'.visited = insert (s.graph.GetTrueBag e.target) (e.visited.image s.graph.GetTrueBag))
    (hall : ∀ c ∈ newChildren order s (s.graph.GetTrueBag e.target), ∃ e' ∈ es, e'.target = c) :
    LoopInv f { s with bag_stack := es ++ rest } fin
      (es.map .pending ++ [s.graph.GetTrueBag e.target].map .expanded ++ (up ++ down)) := by
  have he := h.entries e (hs ▸ List.mem_cons_self)
  have htarget := h.partition.component e.target
  have hidem := h.partition.getTrueBag_idem
  refine h.replace hs hup hdown es [s.graph.GetTrueBag e.target] (fun e' he' => ?_)
    (fun b hb => ?_) ?_ (.inr (List.mem_singleton.mpr rfl))
  · obtain ⟨hc, hpath, hvisited⟩ := hes e' he'
    obtain ⟨⟨c, hc, hce⟩, -, hne⟩ := mem_newChildren.mp hc
    -- the target reaches the child
    have hreach : Reach f.Edge (s.graph.GetTrueBag e.target) e'.target := by
      rcases h.partition.child_sound _ c hc with hrep | hrep
      · rw [hidem, hce] at hrep
        exact absurd hrep.symm hne
      · have := reach_of_between_edge h.partition.component hrep
        rwa [hidem, hce] at this
    obtain ⟨hfirst, hrest⟩ := List.pairwise_cons.mp he.chain
    constructor
    · rw [hpath]
      refine List.pairwise_cons.mpr ⟨fun p hp => ?_, List.pairwise_cons.mpr ⟨fun p hp => ?_, hrest⟩⟩
      · rcases List.mem_cons.mp hp with rfl | hp
        · exact hreach
        · exact ((hfirst p hp).trans htarget.1).trans hreach
      · exact (hfirst p hp).trans htarget.1
    · intro v hv
      rw [hvisited] at hv
      rw [hpath]
      rcases Finset.mem_insert.mp hv with rfl | hv
      · exact ⟨_, List.mem_cons_self, rfl⟩
      · obtain ⟨v', hv', rfl⟩ := Finset.mem_image.mp hv
        obtain ⟨p, hp, hpv⟩ := he.on_path v' hv'
        exact ⟨p, List.mem_cons_of_mem _ hp, by rw [hidem, hpv]⟩
  · rw [List.mem_singleton.mp hb]
    exact h.partition.true_getTrueBag _
  · rw [InOrder, settled_append]
    refine ⟨settled_of_base fun i hi b hb => ?_, fun b hb => ?_, trivial⟩
    · obtain ⟨e', -, rfl⟩ := List.mem_map.mp hi
      exact absurd hb id
    · -- every child is finished or was put on the stack
      by_cases hfin : b ∈ fin
      · exact .inl hfin
      · obtain ⟨c, hc, rfl⟩ := h.partition.child_complete _ b hb
        have hnew : _ ∈ newChildren order s _ := mem_newChildren.mpr
          ⟨⟨c, hc, rfl⟩, fun hf => hfin ((h.finished _).mp hf), hb.1.symm⟩
        obtain ⟨e', he', htc⟩ := hall _ hnew
        refine .inr ⟨.pending e', List.mem_map_of_mem he', ?_⟩
        rw [LogEntry.bag, htc, hidem]

/-- The log after a loop was closed. -/
theorem InOrder.close {fin : List β} {g g' : BagGraph β} {F : β → β} {y : β}
    (h : InOrder f g (fun _ => False) (fin.map .expanded ++ (up ++ .pending e :: down)))
    (hF : g'.GetTrueBag = F ∘ g.GetTrueBag) (hmoved : ∀ b, F b = b ∨ F b = y)
    (hy : g.GetTrueBag e.target = y) (hfin : ∀ b ∈ fin, F b = b ∧ b ≠ y) (e' : SearchEntry β)
    (he' : g'.GetTrueBag e'.target = y) :
    InOrder f g' (fun _ => False)
      (fin.map .expanded ++
        .pending e' :: (up.filter (LogEntry.keeps F y) ++ down.filter (LogEntry.keeps F y))) := by
  have hFy : F y = y := (hmoved y).elim id id
  -- an entry that is kept has the edges of before
  have hedge : ∀ i : LogEntry β, i.keeps F y = true → ∀ b', i.Needs f g'.GetTrueBag b' →
      ∃ b, F b = b' ∧ i.Needs f g.GetTrueBag b := by
    intro i hk b' hb'
    cases i with
    | pending e => exact absurd hb' id
    | expanded x =>
        have hx : F x ≠ y := by simpa [LogEntry.keeps] using hk
        have hb' : Between f.Edge g'.GetTrueBag x b' := hb'
        rw [hF] at hb'
        obtain ⟨a, b, ha, rfl, hab⟩ := between_collapse hb'
        have hax : a = x := by
          rcases hmoved a with h' | h'
          · exact h'.symm.trans ha
          · have hxy : y = x := h'.symm.trans ha
            exact absurd (hxy ▸ hFy) hx
        exact ⟨b, rfl, hax ▸ hab⟩
  have hbag : ∀ i : LogEntry β, i.keeps F y = true →
      i.bag g'.GetTrueBag = F (i.bag g.GetTrueBag) := by
    intro i hk
    cases i with
    | pending e => rw [LogEntry.bag, hF]; rfl
    | expanded x =>
        have hx : F x ≠ y := by simpa [LogEntry.keeps] using hk
        exact ((hmoved x).resolve_right hx).symm
  unfold InOrder at h ⊢
  rw [settled_append] at h ⊢
  simp only [exists_expanded, false_or] at h ⊢
  have hkeepfin : ∀ i ∈ fin.map LogEntry.expanded, i.keeps F y = true := by
    intro i hi
    obtain ⟨x, hx, rfl⟩ := List.mem_map.mp hi
    obtain ⟨hFx, hxy⟩ := hfin x hx
    simp [LogEntry.keeps, hFx, hxy]
  constructor
  · have := h.1.collapse F (LogEntry.keeps F y) (fun _ => False)
      (fun i _ => hbag i) (fun _ => id)
      (fun i hi hk => absurd (hkeepfin i hi) (by simp [hk]))
      (fun i _ hk b' hb' => .inr (hedge i hk b' hb'))
    rwa [List.filter_eq_self.mpr hkeepfin] at this
  · refine ⟨fun b hb => absurd hb id, ?_⟩
    have hout : ∀ i ∈ up ++ LogEntry.pending e :: down, i.keeps F y = false →
        F (i.bag g.GetTrueBag) ∈ fin ∨
          LogEntry.bag g'.GetTrueBag (.pending e') = F (i.bag g.GetTrueBag) := by
      intro i _ hk
      cases i with
      | pending e => cases hk
      | expanded x =>
          have hx : F x = y := by simpa [LogEntry.keeps] using hk
          exact .inr (he'.trans hx.symm)
    have hcollapsed := h.2.collapse F (LogEntry.keeps F y)
      (fun b => b ∈ fin ∨ LogEntry.bag g'.GetTrueBag (.pending e') = b)
      (fun i _ => hbag i) (fun b hb => .inl (by rwa [(hfin b hb).1])) hout
      (fun i _ hk b' hb' => .inr (hedge i hk b' hb'))
    rw [List.filter_append, List.filter_cons_of_pos rfl] at hcollapsed
    refine hcollapsed.erase (.inl (.inr ?_))
    rw [hbag (.pending e) rfl, LogEntry.bag, LogEntry.bag, hy, hFy, he']

/-- The path leads back to the target: the loop becomes one bag, which is searched again. -/
theorem LoopInv.close (order : PtrOrder β) (h : LoopInv f s fin (up ++ .pending e :: down))
    (hs : s.bag_stack = e :: rest) (hup : up.filterMap LogEntry.entry? = [])
    (hdown : down.filterMap LogEntry.entry? = rest)
    (hfin : s.graph.GetTrueBag e.target ∉ fin)
    (hvisited : s.graph.GetTrueBag e.target ∈ e.visited.image s.graph.GetTrueBag) :
    ∃ g' path' visited',
      closeLoop order (s.graph.GetTrueBag e.target) s.graph e.pre_path
          (e.visited.image s.graph.GetTrueBag) ∅ = some (g', path', visited') ∧
        Closed f (s.graph.GetTrueBag e.target) s.graph e.pre_path
          (e.visited.image s.graph.GetTrueBag) g' path' visited' ∧
        ∃ keep : LogEntry β → Bool, (∀ e, keep (.pending e) = true) ∧
          (∀ x, .expanded x ∈ up ++ down → (keep (.expanded x) = false ↔
            g'.GetTrueBag x = s.graph.GetTrueBag e.target)) ∧
          LoopInv f
            { s with
              graph := g'.markLoop (s.graph.GetTrueBag e.target)
              bag_stack := ⟨s.graph.GetTrueBag e.target, path',
                visited'.erase (s.graph.GetTrueBag e.target)⟩ :: rest } fin
            (.pending ⟨s.graph.GetTrueBag e.target, path',
              visited'.erase (s.graph.GetTrueBag e.target)⟩ ::
                (up.filter keep ++ down.filter keep)) := by
  have he := h.entries e (hs ▸ List.mem_cons_self)
  have htarget := h.partition.component e.target
  have hidem := h.partition.getTrueBag_idem
  have htrue := h.partition.true_getTrueBag e.target
  obtain ⟨hfirst, hchain⟩ := List.pairwise_cons.mp he.chain
  generalize hy : s.graph.GetTrueBag e.target = y at *
  have hreach : ∀ p ∈ e.pre_path, Reach f.Edge p y := fun p hp => (hfirst p hp).trans htarget.1
  have honpath : ∀ v ∈ e.visited.image s.graph.GetTrueBag,
      ∃ p ∈ e.pre_path, s.graph.GetTrueBag p = v := by
    intro v hv
    obtain ⟨v', hv', rfl⟩ := Finset.mem_image.mp hv
    exact he.on_path v' hv'
  obtain ⟨g', path', visited', hclose, hc⟩ := closeLoop_spec order
    (e.visited.image s.graph.GetTrueBag) ∅ h.partition htrue hchain hreach (honpath y hvisited)
    (fun v hv => .inr (honpath v hv)) (by simp)
  refine ⟨g', path', visited', hclose, hc, ?_⟩
  obtain ⟨F, hF, hmoved⟩ := hc.merged
  have hFy : F y = y := (hmoved y).elim id And.left
  have hrepy : g'.GetTrueBag y = y := hc.partition.true_iff.mp hc.target
  -- no finished bag is merged: it would lead to the target
  have hfinF : ∀ b ∈ fin, F b = b ∧ b ≠ y := by
    intro b hb
    have hby : b ≠ y := fun hby => hfin (hby ▸ hb)
    refine ⟨(hmoved b).resolve_right fun hb' => hfin ?_, hby⟩
    have := h.finished_of_reach hb hb'.2.1
    rwa [← hy, hidem, hy] at this
  have hsettled := InOrder.close h.settled hF (fun b => (hmoved b).imp_right And.left) hy hfinF
    ⟨y, path', visited'.erase y⟩ hrepy
  have hold : ∀ i ∈ fin.map LogEntry.expanded ++
      (up.filter (LogEntry.keeps F y) ++ down.filter (LogEntry.keeps F y)),
      i ∈ fin.map LogEntry.expanded ++ (up ++ .pending e :: down) ∧ i.keeps F y = true := by
    intro i hi
    simp only [List.mem_append, List.mem_filter, List.mem_cons] at hi ⊢
    rcases hi with hi | hi | hi
    · refine ⟨.inl hi, ?_⟩
      obtain ⟨b, hb, rfl⟩ := List.mem_map.mp hi
      simp [LogEntry.keeps, (hfinF b hb).1, (hfinF b hb).2]
    · exact ⟨.inr (.inl hi.1), hi.2⟩
    · exact ⟨.inr (.inr (.inr hi.1)), hi.2⟩
  refine ⟨LogEntry.keeps F y, fun _ => rfl, fun x hx => ?_,
    hc.partition.markLoop y, fun b hb => ?_, ?_, h.finished, ?_, fun b hb => ?_, ?_,
    fun e' he' => ?_⟩
  · have hxold : LogEntry.expanded x ∈ fin.map LogEntry.expanded ++ (up ++ .pending e :: down) := by
      simp only [List.mem_append, List.mem_cons] at hx ⊢
      exact .inr (hx.imp_right .inr)
    rw [hF, Function.comp_apply, h.partition.true_iff.mp (h.expanded_true x hxold)]
    simp [LogEntry.keeps]
  · rw [getTrueBag_markLoop, hF] at hb ⊢
    rw [is_loop_markLoop]
    split
    · rfl
    · rename_i hne
      have hsame : F (s.graph.GetTrueBag b) = s.graph.GetTrueBag b :=
        (hmoved _).resolve_right fun hb' => hne hb'.1
      rw [Function.comp_apply, hsame] at hb ⊢
      rw [hc.is_loop]
      exact h.loops b hb
  · refine congrArg (List.cons _) ?_
    rw [List.filterMap_append, filterMap_keeps, filterMap_keeps, hup, hdown, List.nil_append]
  · simpa only [InOrder, getTrueBag_markLoop] using hsettled
  · rw [converted_bag_markLoop, hc.partition.true_iff, hF, Function.comp_apply]
    have hb' : LogEntry.expanded b ∈ fin.map LogEntry.expanded ++
        (up.filter (LogEntry.keeps F y) ++ down.filter (LogEntry.keeps F y)) := by
      simpa using hb
    obtain ⟨hbold, hkeep⟩ := hold _ hb'
    have hFb : F b ≠ y := by simpa [LogEntry.keeps] using hkeep
    rw [h.partition.true_iff.mp (h.expanded_true b hbold)]
    exact (hmoved b).resolve_right fun hb' => hFb hb'.1
  · rw [getTrueBag_markLoop, hF, Function.comp_apply]
    by_cases hentry : F (s.graph.GetTrueBag f.entry) = y
    · refine ⟨.pending ⟨y, path', visited'.erase y⟩, by simp, ?_⟩
      rw [hentry, LogEntry.bag, ← hF, hrepy]
    · obtain ⟨i, hi, hif⟩ := h.entry
      have hkeep : i.keeps F y = true := by
        cases i with
        | pending e' => rfl
        | expanded x =>
            rw [LogEntry.bag] at hif
            simpa [LogEntry.keeps, hif] using hentry
      have hie : i ≠ .pending e := by
        rintro rfl
        rw [LogEntry.bag, hy] at hif
        exact hentry (by rw [← hif, hFy])
      refine ⟨i, ?_, ?_⟩
      · simp only [List.mem_append, List.mem_cons, List.mem_filter, hkeep, and_true] at hi ⊢
        tauto
      · rw [← hif]
        cases i with
        | pending e' => rfl
        | expanded x =>
            rw [LogEntry.bag] at hif
            exact ((hmoved x).resolve_right fun hx => hentry (hif ▸ hx.1)).symm
  · rcases List.mem_cons.mp he' with rfl | he'
    · refine ⟨List.pairwise_cons.mpr ⟨fun p hp => hreach p (hc.suffix.subset hp),
        hchain.sublist hc.suffix.sublist⟩, fun v hv => ?_⟩
      obtain ⟨hvy, hv⟩ := Finset.mem_erase.mp hv
      obtain ⟨p, hp, hpv⟩ := (hc.on_path v hv).resolve_left hvy
      refine ⟨p, hp, ?_⟩
      rw [getTrueBag_markLoop, ← hpv, hc.partition.getTrueBag_idem]
    · obtain ⟨hchain', honpath'⟩ := h.entries e' (hs ▸ List.mem_cons_of_mem e he')
      refine ⟨hchain', fun v hv => ?_⟩
      obtain ⟨p, hp, hpv⟩ := honpath' v hv
      refine ⟨p, hp, ?_⟩
      rw [getTrueBag_markLoop, hF, Function.comp_apply, Function.comp_apply, hpv]

end Step

/-! ### Termination -/

/-- A bound on the iterations an entry can cause while no bags are merged.  The number of
visited bags grows with the path; only an entry whose path ends in its target loses one. -/
def weight (rep : β → β) (e : SearchEntry β) : Nat :=
  if rep e.target ∈ e.visited.image rep then
    if e.pre_path.head?.map rep = some (rep e.target) then
      (Fintype.card β + 1) ^ (Fintype.card β + 2 - (e.visited.image rep).card)
    else 1
  else (Fintype.card β + 1) ^ (Fintype.card β - (e.visited.image rep).card)

/-- The bags that are left, and the weight of the stack. -/
def measure (s : RemoveLoopState β) : Nat × Nat :=
  (s.graph.bag_num, (s.bag_stack.map (weight s.graph.GetTrueBag)).sum)

theorem weight_pos (rep : β → β) (e : SearchEntry β) : 0 < weight rep e := by
  unfold weight
  split
  · split
    · exact Nat.pow_pos (Nat.succ_pos _)
    · exact Nat.one_pos
  · exact Nat.pow_pos (Nat.succ_pos _)

omit [Fintype β] in
theorem image_eq_self {rep : β → β} {bags : Finset β} (h : ∀ b ∈ bags, rep b = b) :
    bags.image rep = bags :=
  (Finset.image_congr h).trans Finset.image_id

/-- A child weighs little: it is on the path but not its last bag, or one more bag is
visited. -/
theorem weight_child_le {rep : β → β} {c y : β} {path : List β} {visited : Finset β}
    (hc : rep c = c) (hy : rep y = y) (hne : c ≠ y)
    (hvisited : ∀ v ∈ visited, rep v = v) (hyv : y ∉ visited) :
    weight rep ⟨c, y :: path, insert y visited⟩ ≤
      (Fintype.card β + 1) ^ (Fintype.card β - visited.card - 1) := by
  have himage : (insert y visited).image rep = insert y visited :=
    image_eq_self fun v hv => (Finset.mem_insert.mp hv).elim (fun h => h ▸ hy) (hvisited v)
  have hcard : (insert y visited).card = visited.card + 1 := Finset.card_insert_of_notMem hyv
  unfold weight
  simp only [himage, hc, hcard, List.head?_cons, Option.map_some, hy, Option.some.injEq]
  split
  · rw [if_neg (Ne.symm hne)]
    exact Nat.one_le_pow _ _ (Nat.succ_pos _)
  · exact le_of_eq (congrArg _ (by omega))

/-- All children together weigh less than the bag they are children of. -/
theorem weight_children_lt {rep : β → β} {y : β} {visited : Finset β} {es : List (SearchEntry β)}
    (hyv : y ∉ visited) (hlength : es.length ≤ Fintype.card β)
    (hes : ∀ e ∈ es, weight rep e ≤ (Fintype.card β + 1) ^ (Fintype.card β - visited.card - 1)) :
    (es.map (weight rep)).sum < (Fintype.card β + 1) ^ (Fintype.card β - visited.card) := by
  have hcard : visited.card < Fintype.card β := by
    have := Finset.card_lt_card (Finset.ssubset_insert hyv)
    exact Nat.lt_of_lt_of_le this (Finset.card_le_univ _)
  obtain ⟨k, hk⟩ : ∃ k, Fintype.card β - visited.card = k + 1 :=
    ⟨Fintype.card β - visited.card - 1, by omega⟩
  rw [hk] at hes ⊢
  rw [Nat.add_sub_cancel] at hes
  calc (es.map (weight rep)).sum
      ≤ (es.map (weight rep)).length • (Fintype.card β + 1) ^ k := by
        refine List.sum_le_card_nsmul _ _ fun w hw => ?_
        obtain ⟨e, he, rfl⟩ := List.mem_map.mp hw
        exact hes e he
    _ ≤ Fintype.card β * (Fintype.card β + 1) ^ k := by
        rw [List.length_map, nsmul_eq_mul, Nat.cast_id]
        exact Nat.mul_le_mul_right _ hlength
    _ < (Fintype.card β + 1) ^ (k + 1) := by
        rw [pow_succ, Nat.mul_comm]
        exact Nat.mul_lt_mul_of_pos_left (Nat.lt_succ_self _) (Nat.pow_pos (Nat.succ_pos _))

/-- An entry whose path ended in its target weighs less without that last bag. -/
theorem weight_closed_lt {rep : β → β} (hidem : ∀ b, rep (rep b) = rep b) {e : SearchEntry β}
    {path : List β} {q : β} (hvisited : rep e.target ∈ e.visited.image rep)
    (hpath : e.pre_path = q :: path) (hq : rep q = rep e.target) :
    weight rep ⟨rep e.target, path, (e.visited.image rep).erase (rep e.target)⟩ <
      weight rep e := by
  have himage : ((e.visited.image rep).erase (rep e.target)).image rep =
      (e.visited.image rep).erase (rep e.target) := by
    refine image_eq_self fun v hv => ?_
    obtain ⟨v', -, rfl⟩ := Finset.mem_image.mp (Finset.mem_of_mem_erase hv)
    exact hidem v'
  have hhead : e.pre_path.head?.map rep = some (rep e.target) := by
    rw [hpath, List.head?_cons, Option.map_some, hq]
  have hpos : 0 < (e.visited.image rep).card := Finset.card_pos.mpr ⟨_, hvisited⟩
  have hle : (e.visited.image rep).card ≤ Fintype.card β := Finset.card_le_univ _
  rw [weight, if_neg (by rw [himage, hidem]; exact Finset.notMem_erase _ _), himage,
    Finset.card_erase_of_mem hvisited, weight, if_pos hvisited, if_pos hhead]
  exact Nat.pow_lt_pow_right (by omega) (by omega)

theorem length_iter_le (order : PtrOrder β) (s : Finset β) :
    (order.iter s).length ≤ Fintype.card β :=
  (List.length_filter_le _ _).trans order.nodup.length_le_card

/-! ### One iteration -/

/-- Fewer bags, or as many and less on the stack. -/
def Smaller (a b : Nat × Nat) : Prop := Prod.Lex (· < ·) (· < ·) a b

theorem smaller_wf : WellFounded Smaller := WellFounded.prod_lex Nat.lt_wfRel.wf Nat.lt_wfRel.wf

theorem smaller_of_weight {s s' : RemoveLoopState β} (hg : s'.graph.bag_num = s.graph.bag_num)
    (hw : (s'.bag_stack.map (weight s'.graph.GetTrueBag)).sum <
      (s.bag_stack.map (weight s.graph.GetTrueBag)).sum) : Smaller (measure s') (measure s) := by
  unfold Smaller measure
  rw [hg]
  exact .right _ hw

/-- **An iteration goes on with the invariant and a smaller measure, unless the stack is
empty.** -/
theorem step_spec (order : PtrOrder β) (h : LoopInv f s fin log) :
    s.bag_stack = [] ∧ step order s = .inr (some (updateFamilies s.graph)) ∨
      ∃ s', step order s = .inl s' ∧ (∃ fin log, LoopInv f s' fin log) ∧
        Smaller (measure s') (measure s) := by
  rcases hs : s.bag_stack with - | ⟨e, rest⟩
  · exact .inl ⟨rfl, by simp only [step, hs]⟩
  · refine .inr ?_
    obtain ⟨up, down, rfl, hup, hdown⟩ := h.top hs
    -- a step drops an entry, closes a path, or replaces the entry by its children
    have hidem := h.partition.getTrueBag_idem
    have htrue := hidem e.target
    by_cases hfin : s.graph.GetTrueBag e.target ∈ s.finished
    · -- finished
      refine ⟨{ s with bag_stack := rest }, by simp only [step, hs, if_pos hfin], ?_,
        smaller_of_weight rfl ?_⟩
      · exact ⟨_, _, h.replace hs hup hdown [] [] (by simp) (by simp) trivial
          (.inl ((h.finished _).mp hfin))⟩
      · rw [hs, List.map_cons, List.sum_cons]
        exact Nat.lt_add_of_pos_left (weight_pos _ e)
    · by_cases hvisited : s.graph.GetTrueBag e.target ∈ e.visited.image s.graph.GetTrueBag
      · -- back at a bag of the path
        obtain ⟨g', path', visited', hclose, hc, keep, -, -, hinv⟩ := h.close order hs hup hdown
          (fun hb => hfin ((h.finished _).mpr hb)) hvisited
        refine ⟨_, by simp only [step, hs, if_neg hfin, if_pos hvisited, hclose], ⟨_, _, hinv⟩, ?_⟩
        rcases hc.progress with hlt | ⟨rfl, rfl, q, hq, hqt⟩
        · exact .left _ _ hlt
        · refine smaller_of_weight rfl ?_
          rw [hs, List.map_cons, List.map_cons, List.sum_cons, List.sum_cons, getTrueBag_markLoop]
          exact Nat.add_lt_add_right (weight_closed_lt hidem hvisited hq hqt) _
      · rcases hnew : newChildren order s (s.graph.GetTrueBag e.target) with - | ⟨c, cs⟩
        · -- no child is left
          refine ⟨_, by simp only [step, hs, if_neg hfin, if_neg hvisited, hnew], ⟨_, _,
            h.finish hs hup hdown fun b hb => ?_⟩, smaller_of_weight rfl ?_⟩
          · exact h.mem_of_newChildren_nil hnew b hb
          · rw [hs, List.map_cons, List.sum_cons]
            exact Nat.lt_add_of_pos_left (weight_pos _ e)
        · -- the children are pushed
          refine ⟨_, by simp only [step, hs, if_neg hfin, if_neg hvisited, hnew]; rfl, ⟨_, _,
            h.expand order hs hup hdown ((c :: cs).reverse.map _) (fun e' he' => ?_)
              fun c' hc' => ?_⟩, smaller_of_weight rfl ?_⟩
          · obtain ⟨c', hc', rfl⟩ := List.mem_map.mp he'
            exact ⟨hnew ▸ List.mem_reverse.mp hc', rfl, rfl⟩
          · rw [hnew] at hc'
            exact ⟨_, List.mem_map_of_mem (List.mem_reverse.mpr hc'), rfl⟩
          · rw [hs, List.map_append, List.map_cons, List.sum_append, List.sum_cons]
            refine Nat.add_lt_add_right ?_ _
            rw [weight, if_neg hvisited]
            refine weight_children_lt hvisited ?_ fun e' he' => ?_
            · rw [List.length_map, List.length_reverse, ← hnew]
              exact (List.length_filter_le _ _).trans
                ((List.length_map _).trans_le (length_iter_le order _))
            · obtain ⟨c', hc', rfl⟩ := List.mem_map.mp he'
              rw [List.mem_reverse, ← hnew] at hc'
              obtain ⟨⟨c₀, -, rfl⟩, -, hne⟩ := mem_newChildren.mp hc'
              refine weight_child_le (hidem c₀) htrue hne (fun v hv => ?_) hvisited
              obtain ⟨v', -, rfl⟩ := Finset.mem_image.mp hv
              exact hidem v'

/-- What an iteration does with the top entry of the stack, and to the log. -/
inductive Iteration (f : BlockGraph β) (order : PtrOrder β) (s : RemoveLoopState β) (fin : List β)
    (e : SearchEntry β) (rest : List (SearchEntry β)) (up down : List (LogEntry β)) :
    RemoveLoopState β → List β → List (LogEntry β) → Prop
  | skip : s.graph.GetTrueBag e.target ∈ fin →
      Iteration f order s fin e rest up down { s with bag_stack := rest } fin (up ++ down)
  | finish :
      Iteration f order s fin e rest up down
        { s with bag_stack := rest, finished := insert (s.graph.GetTrueBag e.target) s.finished }
        (fin ++ [s.graph.GetTrueBag e.target]) (up ++ down)
  | expand (es : List (SearchEntry β)) :
      s.graph.GetTrueBag e.target ∉ e.visited.image s.graph.GetTrueBag →
      (∀ e' ∈ es, e'.target ∈ newChildren order s (s.graph.GetTrueBag e.target) ∧
        e'.pre_path = s.graph.GetTrueBag e.target :: e.pre_path ∧
        e'.visited = insert (s.graph.GetTrueBag e.target) (e.visited.image s.graph.GetTrueBag)) →
      Iteration f order s fin e rest up down { s with bag_stack := es ++ rest } fin
        (es.map .pending ++ [s.graph.GetTrueBag e.target].map .expanded ++ (up ++ down))
  | close (g' : BagGraph β) (path' : List β) (visited' : Finset β) (keep : LogEntry β → Bool) :
      s.graph.GetTrueBag e.target ∉ fin →
      s.graph.GetTrueBag e.target ∈ e.visited.image s.graph.GetTrueBag →
      Closed f (s.graph.GetTrueBag e.target) s.graph e.pre_path
        (e.visited.image s.graph.GetTrueBag) g' path' visited' →
      (∀ e, keep (.pending e) = true) →
      (∀ x, .expanded x ∈ up ++ down → (keep (.expanded x) = false ↔
        g'.GetTrueBag x = s.graph.GetTrueBag e.target)) →
      Iteration f order s fin e rest up down
        { s with
          graph := g'.markLoop (s.graph.GetTrueBag e.target)
          bag_stack := ⟨s.graph.GetTrueBag e.target, path',
            visited'.erase (s.graph.GetTrueBag e.target)⟩ :: rest } fin
        (.pending ⟨s.graph.GetTrueBag e.target, path',
          visited'.erase (s.graph.GetTrueBag e.target)⟩ :: (up.filter keep ++ down.filter keep))

/-- The top of the stack stands in the log as its first entry. -/
theorem LoopInv.iteration {s' : RemoveLoopState β} (h : LoopInv f s fin log)
    (hstep : step order s = .inl s') :
    ∃ e rest up down, s.bag_stack = e :: rest ∧ log = up ++ .pending e :: down ∧
      up.filterMap LogEntry.entry? = [] ∧ down.filterMap LogEntry.entry? = rest ∧
      ∃ fin' log', Iteration f order s fin e rest up down s' fin' log' ∧
        LoopInv f s' fin' log' := by
  rcases hs : s.bag_stack with - | ⟨e, rest⟩
  · simp only [step, hs, reduceCtorEq] at hstep
  · obtain ⟨up, down, rfl, hup, hdown⟩ := h.top hs
    refine ⟨e, rest, up, down, rfl, rfl, hup, hdown, ?_⟩
    by_cases hfin : s.graph.GetTrueBag e.target ∈ s.finished
    · -- finished
      simp only [step, hs, if_pos hfin] at hstep
      cases hstep
      have hfin' := (h.finished _).mp hfin
      exact ⟨_, _, .skip hfin',
        h.replace hs hup hdown [] [] (by simp) (by simp) trivial (.inl hfin')⟩
    · have hnotfin : s.graph.GetTrueBag e.target ∉ fin := fun hb => hfin ((h.finished _).mpr hb)
      by_cases hvisited : s.graph.GetTrueBag e.target ∈ e.visited.image s.graph.GetTrueBag
      · -- back at a bag of the path
        obtain ⟨g', path', visited', hclose, hc, keep, hpending, hexpanded, hinv⟩ :=
          h.close order hs hup hdown hnotfin hvisited
        simp only [step, hs, if_neg hfin, if_pos hvisited, hclose] at hstep
        cases hstep
        exact ⟨_, _, .close g' path' visited' keep hnotfin hvisited hc hpending hexpanded, hinv⟩
      · rcases hnew : newChildren order s (s.graph.GetTrueBag e.target) with - | ⟨c, cs⟩
        · -- no child is left
          simp only [step, hs, if_neg hfin, if_neg hvisited, hnew] at hstep
          cases hstep
          exact ⟨_, _, .finish, h.finish hs hup hdown (h.mem_of_newChildren_nil hnew)⟩
        · -- the children are pushed
          simp only [step, hs, if_neg hfin, if_neg hvisited, hnew] at hstep
          cases hstep
          have hes : ∀ e' ∈ (c :: cs).reverse.map fun c => (⟨c, s.graph.GetTrueBag e.target ::
              e.pre_path, insert (s.graph.GetTrueBag e.target)
                (e.visited.image s.graph.GetTrueBag)⟩ : SearchEntry β),
              e'.target ∈ newChildren order s (s.graph.GetTrueBag e.target) ∧
              e'.pre_path = s.graph.GetTrueBag e.target :: e.pre_path ∧
              e'.visited = insert (s.graph.GetTrueBag e.target)
                (e.visited.image s.graph.GetTrueBag) := by
            intro e' he'
            obtain ⟨c', hc', rfl⟩ := List.mem_map.mp he'
            exact ⟨hnew ▸ List.mem_reverse.mp hc', rfl, rfl⟩
          refine ⟨_, _, .expand _ hvisited hes, h.expand order hs hup hdown _ hes fun c' hc' => ?_⟩
          rw [hnew] at hc'
          exact ⟨_, List.mem_map_of_mem (List.mem_reverse.mpr hc'), rfl⟩

/-! ### The result -/

theorem loopInv_start (f : BlockGraph β) (order : PtrOrder β) (uninit : β → Bool) :
    LoopInv f (start f order uninit) [] [.pending ⟨f.entry, [], ∅⟩] := by
  have hpart := partition_init f order uninit
  have htrue : ∀ b, (BagGraph.init f order uninit).GetTrueBag b = b := by
    intro b
    have hconv : (BagGraph.init f order uninit).converted_bag b = b :=
      linkAll_field (·.converted_bag) (fun _ _ _ => rfl) _
    exact hpart.true_iff.mp hconv
  refine ⟨hpart, fun b hb => absurd (htrue b) hb, rfl, fun b => ?_,
    ⟨fun _ h => absurd h id, trivial⟩, fun b hb => ?_, ⟨_, List.mem_singleton.mpr rfl, rfl⟩,
    fun e he => ?_⟩
  · simp [start]
  · simp at hb
  · rw [List.mem_singleton.mp he]
    exact ⟨List.pairwise_singleton _ _, fun v hv => absurd hv (Finset.notMem_empty v)⟩

/-- With an empty stack, every entry of the log is a bag that was expanded. -/
theorem LoopInv.expanded_of_empty (h : LoopInv f s fin log) (hs : s.bag_stack = [])
    (e : SearchEntry β) : .pending e ∉ fin.map LogEntry.expanded ++ log := by
  intro hi
  rcases List.mem_append.mp hi with hi | hi
  · exact pending_notMem_fin fin e hi
  · have hnone := List.filterMap_eq_nil_iff.mp (h.stack.trans hs) _ hi
    cases hnone

/-- With an empty stack the log has no cycle and holds all bags. -/
theorem LoopInv.components (h : LoopInv f s fin log) (hs : s.bag_stack = [])
    (hreach : ∀ b, Reach f.Edge f.entry b) (a b : β) :
    s.graph.GetTrueBag a = s.graph.GetTrueBag b ↔ Mutual f.Edge a b := by
  have hfull := LogEntry.needs_of_expanded f s.graph.GetTrueBag
    (h.expanded_of_empty hs)
  have hall : ∀ b, ∃ i ∈ fin.map LogEntry.expanded ++ log,
      LogEntry.bag s.graph.GetTrueBag i = s.graph.GetTrueBag b :=
    fun b => h.settled.closed_reach hfull h.entry (reach_between (hreach b))
  exact rep_eq_iff h.partition.component fun a b hab hba =>
    h.settled.antisymm hfull (hall a) hab hba

theorem updateFamilies_field {γ : Type} (field : PhiRegsBBBagNode β → γ)
    (hf : ∀ n parents children, field { n with parents := parents, children := children } = field n)
    (g : BagGraph β) (b : β) : field ((updateFamilies g).node b) = field (g.node b) := by
  simp only [updateFamilies]
  split
  · exact hf _ _ _
  · rfl

theorem converted_bag_updateFamilies (g : BagGraph β) :
    (updateFamilies g).converted_bag = g.converted_bag :=
  funext fun b => updateFamilies_field (·.converted_bag) (fun _ _ _ => rfl) g b

/-- The final update leaves the edges between different bags. -/
theorem loopFree_updateFamilies {g : BagGraph β} (h : Partition f g)
    (hloops : ∀ b, g.GetTrueBag b ≠ b → (g.node (g.GetTrueBag b)).is_loop = true)
    (hcomponents : ∀ a b, g.GetTrueBag a = g.GetTrueBag b ↔ Mutual f.Edge a b) :
    LoopFree f (updateFamilies g) := by
  -- only the links of the true bags are written, so the bags stay as they are
  have htrue : (updateFamilies g).GetTrueBag = g.GetTrueBag := by
    unfold GetTrueBag
    rw [converted_bag_updateFamilies]
  have hclass : (updateFamilies g).ClassIn = g.ClassIn := by
    unfold ClassIn
    rw [htrue]
  refine ⟨⟨?_, ?_, ?_, ?_, ?_⟩, ?_, ?_, ?_, ?_, ?_, ?_, ?_⟩
  · -- the components, and that the root of a root is itself
    rwa [htrue]
  · rw [htrue]
    exact h.getTrueBag_idem
  · rw [htrue]
    -- children: the links are translated to true bags and the bag itself is taken out
    intro b hb c
    simp only [updateFamilies, if_pos (h.true_iff.mpr hb), Finset.mem_erase, Finset.mem_image]
    constructor
    · rintro ⟨hne, c', hc', rfl⟩
      have := h.child_sound b c' hc'
      rw [hb] at this
      exact this.resolve_left (Ne.symm hne)
    · exact fun hbc => ⟨hbc.1.symm, h.child_complete b c hbc⟩
  · rw [htrue]
    -- parents, the same way round
    intro b hb p
    simp only [updateFamilies, if_pos (h.true_iff.mpr hb), Finset.mem_erase, Finset.mem_image]
    constructor
    · rintro ⟨hne, p', hp', rfl⟩
      have := h.child_sound p' b ((h.converse p' b).mp hp')
      rw [hb] at this
      exact this.resolve_left hne
    · exact fun hpb => ⟨hpb.1, h.parent_complete p b hpb⟩
  · rw [htrue]
    -- the fields that are not written
    simp only [← h.true_iff]
    exact h.bag_num
  · rw [htrue, hclass]
    intro b hb er
    rw [updateFamilies_field (·.own_ld_rmp) fun _ _ _ => rfl]
    exact h.own_ld b (h.true_iff.mpr hb) er
  · rw [htrue, hclass]
    intro b hb er
    rw [updateFamilies_field (·.own_str_rmp) fun _ _ _ => rfl]
    exact h.own_str b (h.true_iff.mpr hb) er
  · intro b er
    rw [updateFamilies_field (·.own_ld_rmp) fun _ _ _ => rfl]
    exact h.own_self b er
  · rw [htrue]
    intro b hb x
    rw [updateFamilies_field (·.in_bbs) fun _ _ _ => rfl]
    exact h.in_bbs b (h.true_iff.mpr hb) x
  · rw [htrue]
    intro b hb
    rw [updateFamilies_field (·.is_loop) fun _ _ _ => rfl]
    exact hloops b hb
  · intro b
    rw [updateFamilies_field (·.sucs_ld_rmp) fun _ _ _ => rfl]
    exact h.sucs_ld b
  · intro b er
    rw [updateFamilies_field (·.pres_ld_rmp) fun _ _ _ => rfl,
      updateFamilies_field (·.pres_str_rmp) fun _ _ _ => rfl]
    exact h.pres b er

/-- **Loop removal stops, fails no check and leaves the components as bags.** -/
theorem removeLoop_halts (f : BlockGraph β) (order : PtrOrder β) (uninit : β → Bool)
    (hreach : ∀ b, Reach f.Edge f.entry b) :
    ∃ g, Machine.Halts (step order) (start f order uninit) (some g) ∧ LoopFree f g := by
  have hhalts : ∃ r, Machine.Halts (step order) (start f order uninit) r ∧
      ∃ g, r = some g ∧ LoopFree f g :=
    Machine.halts_of_measure Smaller smaller_wf (I := fun s => ∃ fin log, LoopInv f s fin log)
    measure
    (fun s s' ⟨fin, log, h⟩ hstep => by
      rcases step_spec order h with ⟨-, he⟩ | ⟨s'', he, hinv, hlt⟩
      · rw [he] at hstep
        cases hstep
      · rw [he] at hstep
        cases hstep
        exact ⟨hinv, hlt⟩)
    (fun s r ⟨fin, log, h⟩ hstep => by
      rcases step_spec order h with ⟨hs, he⟩ | ⟨s'', he, -, -⟩
      · rw [he] at hstep
        cases hstep
        exact ⟨_, rfl, loopFree_updateFamilies h.partition h.loops (h.components hs hreach)⟩
      · rw [he] at hstep
        cases hstep)
    ⟨_, _, loopInv_start f order uninit⟩
  obtain ⟨r, hr, g, rfl, hg⟩ := hhalts
  exact ⟨g, hr, hg⟩

theorem loopFree_of_halts {uninit : β → Bool} {g : BagGraph β}
    (hreach : ∀ b, Reach f.Edge f.entry b)
    (hg : Machine.Halts (step order) (start f order uninit) (some g)) : LoopFree f g := by
  obtain ⟨g', hg', hfree⟩ := removeLoop_halts f order uninit hreach
  rwa [Option.some.inj (Machine.halts_unique hg hg')]

end RemoveLoop

end Elfconv
