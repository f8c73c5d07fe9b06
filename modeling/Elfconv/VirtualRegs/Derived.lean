/-
Elfconv/VirtualRegs/Derived.lean

The registers that every bag derives from its parents.

`GetPrecedingVirtualRegsBags` walks the graph of the bags from the root, a bag after all
its parents, and collects the registers that are read or written on the way to a bag;
`GetSucceedingVirtualRegsBags` walks it back and collects those that are read from a bag
on.  A bag derives the written argument registers, in a loop the registers the loop reads,
and the registers that are both accessed before and read from there on.
-/
import Elfconv.VirtualRegs.Bags

namespace Elfconv

variable {β : Type} [Fintype β] [DecidableEq β]

/-! ### Counters -/

/-- The finished parents or children of the bags, `none` for a bag without an entry. -/
abbrev Nummp (β : Type) := β → Option Nat

namespace Nummp

/-- The value, zero where there is no entry. -/
def count (mp : Nummp β) (b : β) : Nat := (mp b).getD 0

/-- `insert({b, 0})` keeps an entry. -/
def insertZero (mp : Nummp β) (b : β) : Nummp β := Function.update mp b (some (mp.count b))

/-- `mp[b]++` -/
def increment (mp : Nummp β) (b : β) : Nummp β := Function.update mp b (some (mp.count b + 1))

/-- `mp[b]++` for each of the bags. -/
def incrementAll (mp : Nummp β) (bags : List β) : Nummp β := bags.foldl increment mp

/-- How many bags have an entry. -/
def size (mp : Nummp β) : Nat := (Finset.univ.filter fun b => (mp b).isSome).card

end Nummp

/-! ### The preceding registers -/

/-- The breadth-first pass from the entry over the bags. -/
structure PrecedingState (β : Type) where
  graph : BagGraph β
  bag_queue : List β
  fin_pars_nummp : Nummp β
  fins : Finset β

namespace Preceding

/-- All parents of the bag are finished. -/
def finish (order : PtrOrder β) (g : BagGraph β) (t_bg : β) : BagGraph β :=
  g.modify t_bg fun n =>
    { n with
      pres_ld_rmp := n.pres_ld_rmp.mergeEach (order.iter n.parents)
        (fun par_bg => (g.node par_bg).pres_ld_rmp) fun par_bg => (g.node par_bg).own_ld_rmp
      pres_str_rmp := n.pres_str_rmp.mergeEach (order.iter n.parents)
        (fun par_bg => (g.node par_bg).pres_str_rmp) fun par_bg => (g.node par_bg).own_str_rmp }

/-- A turn of the first pass; its end checks that every bag was finished. -/
def step (order : PtrOrder β) (s : PrecedingState β) : PrecedingState β ⊕ Option (BagGraph β) :=
  match s.bag_queue with
  | [] => .inr (if s.fins.card = s.graph.bag_num then some s.graph else none)
  | t_bg :: bag_queue =>
      if t_bg ∈ s.fins then .inl { s with bag_queue := bag_queue }
      else
        let nummp := s.fin_pars_nummp.insertZero t_bg
        if (s.graph.node t_bg).parents.card = nummp.count t_bg then
          let fins := insert t_bg s.fins
          let children := order.iter (s.graph.node t_bg).children
          .inl
            { graph := finish order s.graph t_bg
              bag_queue := bag_queue ++ children.filter (· ∉ fins)
              fin_pars_nummp := nummp.incrementAll children
              fins := fins }
        else .inl { s with bag_queue := bag_queue, fin_pars_nummp := nummp }

/-- The pass starts at the bag of the entry. -/
def start (g : BagGraph β) (root : β) : PrecedingState β where
  graph := g
  bag_queue := [root]
  fin_pars_nummp := fun _ => none
  fins := ∅

end Preceding

/-! ### The succeeding registers -/

/-- The depth-first pass from the ends back to the entry. -/
structure SucceedingState (β : Type) where
  graph : BagGraph β
  bag_stack : List β
  fin_chn_nummp : Nummp β
  fins : Finset β

namespace Succeeding

/-- All children of the bag are finished.  Its own registers are merged once for each
child, so not at all when there is none. -/
def finish (order : PtrOrder β) (g : BagGraph β) (t_bg : β) : BagGraph β :=
  g.modify t_bg fun n =>
    { n with
      sucs_ld_rmp := n.sucs_ld_rmp.mergeEach (order.iter n.children)
        (fun ch_bg => (g.node ch_bg).sucs_ld_rmp) fun _ => n.own_ld_rmp }

/-- A turn of the second pass; its end checks that every bag was finished. -/
def step (order : PtrOrder β) (s : SucceedingState β) :
    SucceedingState β ⊕ Option (BagGraph β) :=
  match s.bag_stack with
  | [] =>
      .inr
        (if s.fins.card = s.fin_chn_nummp.size ∧ s.fins.card = s.graph.bag_num then some s.graph
        else none)
  | t_bg :: bag_stack =>
      if t_bg ∈ s.fins then .inl { s with bag_stack := bag_stack }
      else
        let nummp := s.fin_chn_nummp.insertZero t_bg
        let children := order.iter (s.graph.node t_bg).children
        if (s.graph.node t_bg).children.card = nummp.count t_bg then
          .inl
            { graph := finish order s.graph t_bg
              bag_stack := bag_stack
              fin_chn_nummp := nummp.incrementAll (order.iter (s.graph.node t_bg).parents)
              fins := insert t_bg s.fins }
        else
          .inl
            { s with
              bag_stack := (children.filter (· ∉ s.fins)).reverse ++ t_bg :: bag_stack
              fin_chn_nummp := nummp }

/-- The pass starts at the bag of the entry. -/
def start (g : BagGraph β) (root : β) : SucceedingState β where
  graph := g
  bag_stack := [root]
  fin_chn_nummp := fun _ => none
  fins := ∅

end Succeeding

/-! ### The derived registers -/

namespace PhiRegsBBBagNode

/-- The class of an access on the way to the bag, the wider one of a read and a write. -/
def pre_erc (n : PhiRegsBBBagNode β) : EcvRegMap := fun er =>
  match n.pres_ld_rmp er, n.pres_str_rmp er with
  | none, str => str
  | some erc₁, none => some erc₁
  | some erc₁, some erc₂ => if ERCSize erc₁ ≤ ERCSize erc₂ then some erc₂ else some erc₁

/-- The three steps that fill `drvd_rmp`. -/
def derive (n : PhiRegsBBBagNode β) : EcvRegMap :=
  let args : EcvRegMap := fun er => if er.CheckPassedArgsRegs then n.pres_str_rmp er else none
  let loop := if n.is_loop then args.merge n.own_ld_rmp else args
  loop.merge fun er => if n.sucs_ld_rmp.contains er then n.pre_erc er else none

end PhiRegsBBBagNode

/-- Every bag gets the registers that it derives. -/
def BagGraph.deriveAll (g : BagGraph β) : BagGraph β :=
  { g with node := fun b => { g.node b with drvd_rmp := (g.node b).derive } }

/-- `GetPhiRegsBags` ends, fails no check and leaves the bags `g`. -/
def Analyzed (f : BlockGraph β) (order : PtrOrder β) (uninit : β → Bool) (g : BagGraph β) : Prop :=
  ∃ g₁ g₂ g₃,
    Machine.Halts (RemoveLoop.step order) (RemoveLoop.start f order uninit) (some g₁) ∧
    Machine.Halts (Preceding.step order) (Preceding.start g₁ (g₁.GetTrueBag f.entry)) (some g₂) ∧
    Machine.Halts (Succeeding.step order) (Succeeding.start g₂ (g₂.GetTrueBag f.entry)) (some g₃) ∧
    g = g₃.deriveAll

/-- `bb_regs_bag_map.at(b)->drvd_rmp`. -/
def BagGraph.drvd_rmp (g : BagGraph β) (b : β) : EcvRegMap := (g.node (g.GetTrueBag b)).drvd_rmp

end Elfconv
