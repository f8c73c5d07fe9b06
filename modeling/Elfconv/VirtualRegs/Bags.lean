/-
Elfconv/VirtualRegs/Bags.lean

The bags of basic blocks on which the use of virtual registers is analysed.

Every block of a function starts in a bag of its own, which goes by the name of the block.
`RemoveLoop` searches the graph of the bags from the entry block and merges the bags of
each loop it closes into one.  A bag that was merged points to the one it was merged into;
`GetTrueBag` follows these pointers.

The bags are kept in sets of pointers, so their addresses decide in which order the bags of
a set are visited: `PtrOrder` is any such order.
-/
import Elfconv.Lib.Forest
import Elfconv.Lib.Machine
import Elfconv.VirtualRegs.RegMap
import Mathlib.Data.Finset.Image

namespace Elfconv

/-- The blocks of a function after joining: `bb_parents`, and for each block the registers
it reads before it writes them and the registers it writes. -/
structure BlockGraph (β : Type) where
  entry : β
  bb_parents : β → Finset β
  bb_ld_r_mp : β → EcvRegMap
  bb_str_r_mp : β → EcvRegMap

/-- `PhiRegsBBBagNode`: the registers of a bag of blocks, and the bags around it. -/
structure PhiRegsBBBagNode (β : Type) where
  own_ld_rmp : EcvRegMap
  own_str_rmp : EcvRegMap
  pres_ld_rmp : EcvRegMap
  pres_str_rmp : EcvRegMap
  sucs_ld_rmp : EcvRegMap
  drvd_rmp : EcvRegMap
  in_bbs : Finset β
  parents : Finset β
  children : Finset β
  converted_bag : β
  is_loop : Bool

/-- All bags, and the number of those that are left. -/
structure BagGraph (β : Type) where
  node : β → PhiRegsBBBagNode β
  bag_num : Nat

/-- The bags by address. -/
structure PtrOrder (β : Type) where
  bags : List β
  nodup : bags.Nodup
  complete : ∀ b, b ∈ bags

variable {β : Type} [Fintype β] [DecidableEq β]

/-- The members of a set in the order of the iteration. -/
def PtrOrder.iter (order : PtrOrder β) (s : Finset β) : List β := order.bags.filter (· ∈ s)

namespace BagGraph

/-- The graph with one bag changed. -/
def modify (g : BagGraph β) (b : β) (f : PhiRegsBBBagNode β → PhiRegsBBBagNode β) : BagGraph β :=
  { g with node := Function.update g.node b (f (g.node b)) }

/-- The bag that a bag was merged into, itself if it was not. -/
def converted_bag (g : BagGraph β) (b : β) : β := (g.node b).converted_bag

/-- The bag that is left when `converted_bag` is followed to its end. -/
def GetTrueBag (g : BagGraph β) (b : β) : β := Forest.root g.converted_bag b

/-! ### The initial bags -/

/-- `par->children.insert(child)` -/
def addChild (g : BagGraph β) (par child : β) : BagGraph β :=
  g.modify par fun n => { n with children := insert child n.children }

/-- `child->parents.insert(par)` -/
def addParent (g : BagGraph β) (par child : β) : BagGraph β :=
  g.modify child fun n => { n with parents := insert par n.parents }

/-- `par` and `child` become parent and child of each other. -/
def link (g : BagGraph β) (par child : β) : BagGraph β := (g.addChild par child).addParent par child

/-- The links of all edges, one after the other. -/
def linkAll (g : BagGraph β) (edges : List (β × β)) : BagGraph β :=
  edges.foldl (fun g e => g.link e.1 e.2) g

/-- The edges of the function that leave their block. -/
def edges (f : BlockGraph β) (order : PtrOrder β) : List (β × β) :=
  order.bags.flatMap fun bb =>
    ((order.iter (f.bb_parents bb)).filter (· ≠ bb)).map fun par => (par, bb)

/-- One bag for each block.  `is_loop` is not initialised in the source; a new bag has the
value that `uninit` gives. -/
def ofBlocks (f : BlockGraph β) (uninit : β → Bool) : BagGraph β where
  node bb :=
    { own_ld_rmp := f.bb_ld_r_mp bb
      own_str_rmp := f.bb_str_r_mp bb
      pres_ld_rmp := fun _ => none
      pres_str_rmp := fun _ => none
      sucs_ld_rmp := f.bb_ld_r_mp bb
      drvd_rmp := fun _ => none
      in_bbs := {bb}
      parents := ∅
      children := ∅
      -- set by the first loop of `RemoveLoop`
      converted_bag := bb
      is_loop := uninit bb }
  bag_num := Fintype.card β

/-- The bags before the search for loops. -/
def init (f : BlockGraph β) (order : PtrOrder β) (uninit : β → Bool) : BagGraph β :=
  (ofBlocks f uninit).linkAll (edges f order)

/-! ### Merging -/

/-- The registers of the merged bag become own ones, by the wider class. -/
def MergeOwnRegs (g : BagGraph β) (this moved_bag : β) : BagGraph β :=
  g.modify this fun n =>
    { n with
      own_ld_rmp := n.own_ld_rmp.merge (g.node moved_bag).own_ld_rmp
      own_str_rmp := n.own_str_rmp.merge (g.node moved_bag).own_str_rmp }

/-- The children are looked up after the parents are linked: a parent may turn out to be
the merged bag itself. -/
def MergeFamilyBags (g : BagGraph β) (order : PtrOrder β) (this merged_bag : β) : BagGraph β :=
  let g' := g.linkAll
    ((order.iter (g.node merged_bag).parents).map fun par => (g.GetTrueBag par, this))
  g'.linkAll
    ((order.iter (g'.node merged_bag).children).map fun child => (this, g.GetTrueBag child))

/-- The blocks of the merged bag move as well. -/
def MergeBlocks (g : BagGraph β) (this moved_bag : β) : BagGraph β :=
  g.modify this fun n => { n with in_bbs := n.in_bbs ∪ (g.node moved_bag).in_bbs }

/-- The merged bag is left as a pointer to its target. -/
def convert (g : BagGraph β) (moved_bag target_bag : β) : BagGraph β :=
  { g.modify moved_bag fun n => { n with converted_bag := target_bag } with
    bag_num := g.bag_num - 1 }

/-- `moved_bag` is merged into `target_bag`. -/
def translate (g : BagGraph β) (order : PtrOrder β) (target_bag moved_bag : β) : BagGraph β :=
  (((g.MergeOwnRegs target_bag moved_bag).MergeFamilyBags order target_bag moved_bag).MergeBlocks
    target_bag moved_bag).convert moved_bag target_bag

/-- The bag is on a loop. -/
def markLoop (g : BagGraph β) (b : β) : BagGraph β :=
  g.modify b fun n => { n with is_loop := true }

end BagGraph

/-! ### The search -/

/-- A tuple of `bag_stack`; the path has its last bag first. -/
structure SearchEntry (β : Type) where
  target : β
  pre_path : List β
  visited : Finset β

/-- The bags, the paths that are still to be searched and the bags that are finished. -/
structure RemoveLoopState (β : Type) where
  graph : BagGraph β
  bag_stack : List (SearchEntry β)
  finished : Finset β

namespace RemoveLoop

/-- The path is taken back to the target, and its bags are merged into the target on the
way; `none` when the path does not lead back to it. -/
def closeLoop (order : PtrOrder β) (target_bag : β) :
    BagGraph β → List β → Finset β → Finset β → Option (BagGraph β × List β × Finset β)
  | _, [], _, _ => none
  | g, bag :: pre_path, visited, deleted =>
      let moved_bag := g.GetTrueBag bag
      if target_bag = moved_bag then some (g, pre_path, visited)
      else if moved_bag ∈ deleted then closeLoop order target_bag g pre_path visited deleted
      else
        closeLoop order target_bag (g.translate order target_bag moved_bag) pre_path
          (visited.erase moved_bag) (insert moved_bag deleted)

/-- The children to search, by their true bags. -/
def newChildren (order : PtrOrder β) (s : RemoveLoopState β) (target_bag : β) : List β :=
  ((order.iter (s.graph.node target_bag).children).map s.graph.GetTrueBag).filter fun child =>
    child ∉ s.finished ∧ child ≠ target_bag

/-- The final update: every family set names true bags other than the bag itself. -/
def updateFamilies (g : BagGraph β) : BagGraph β :=
  { g with
    node := fun b =>
      if g.converted_bag b = b then
        { g.node b with
          parents := ((g.node b).parents.image g.GetTrueBag).erase b
          children := ((g.node b).children.image g.GetTrueBag).erase b }
      else g.node b }

/-- One iteration; the result is `none` where a check fails. -/
def step (order : PtrOrder β) (s : RemoveLoopState β) :
    RemoveLoopState β ⊕ Option (BagGraph β) :=
  match s.bag_stack with
  | [] => .inr (some (updateFamilies s.graph))
  | e :: bag_stack =>
      let target_bag := s.graph.GetTrueBag e.target
      let visited := e.visited.image s.graph.GetTrueBag
      -- the bag was searched by another path
      if target_bag ∈ s.finished then .inl { s with bag_stack := bag_stack }
      -- the path comes back to a bag on it: the bags in between are merged into it, and it stays on
      -- the stack
      else if target_bag ∈ visited then
        match closeLoop order target_bag s.graph e.pre_path visited ∅ with
        | none => .inr none
        | some (g, pre_path, visited) =>
            .inl
              { s with
                graph := g.markLoop target_bag
                bag_stack := ⟨target_bag, pre_path, visited.erase target_bag⟩ :: bag_stack }
      else
        match newChildren order s target_bag with
        | [] => .inl { s with bag_stack := bag_stack, finished := insert target_bag s.finished }
        -- the last child ends on top; the bag itself is not pushed again
        | child :: children =>
            .inl
              { s with
                bag_stack := ((child :: children).reverse.map fun c =>
                  ⟨c, target_bag :: e.pre_path, insert target_bag visited⟩) ++ bag_stack }

/-- The search starts at the entry, on an empty path. -/
def start (f : BlockGraph β) (order : PtrOrder β) (uninit : β → Bool) : RemoveLoopState β where
  graph := .init f order uninit
  bag_stack := [⟨f.entry, [], ∅⟩]
  finished := ∅

end RemoveLoop

end Elfconv
