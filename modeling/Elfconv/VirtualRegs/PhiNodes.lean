/-
Elfconv/VirtualRegs/PhiNodes.lean

`OptimizeVirtualRegsUsage`: the phi nodes of the derived registers.

The blocks are taken from a queue.  For every register that the bag of a block derives a phi
node is made, and `GetDrvdValue` is asked for the value at the end of each parent.  A parent
that has no value of the register makes a phi node of its own when its bag derives the
register, which asks the parents of the parent; when it does not, the register is loaded, at
the end of the parent or, when another successor of the parent has no use for it, in a relay
block on the edge.

The recursion is a stack of the phi nodes under construction: the value for the one on top is
found in a step, or a phi node is put on it.  An instruction is known by the register it
stands for and the block it is in: a cast stands in the block of what it casts, and the
instructions of a block that is worked off are replaced by others of the block.
-/
import Elfconv.Lib.FlowGraph
import Elfconv.Lib.Machine
import Elfconv.VirtualRegs.Reg
import Mathlib.Data.Finset.Max

namespace Elfconv

/-- A basic block: one of the function, or a relay block by its age. -/
inductive BB (β : Type)
  | orig (b : β)
  | relay (n : Nat)
  deriving DecidableEq

namespace BB

variable {β : Type}

/-- The block of the function, nothing for a relay block. -/
def orig? : BB β → Option β
  | .orig b => some b
  | .relay _ => none

/-- The block was put on an edge by the pass. -/
def isRelay : BB β → Bool
  | .orig _ => false
  | .relay _ => true

end BB

/-- The terminator of a block. -/
inductive Terminator (β : Type)
  | ret
  | br (dst : β)
  | condBr (true_bb false_bb : β)

/-- The successors, a target that both branches share twice. -/
def Terminator.successors {β : Type} : Terminator β → List β
  | .ret => []
  | .br dst => [dst]
  | .condBr true_bb false_bb => [true_bb, false_bb]

/-- What the pass finds: the blocks, their terminators, the registers that the bag of each
block derives, those that its instructions load or write, and those with an entry in
`r_fresh_inst_mp`. -/
structure LiftedCFG (β : Type) where
  blocks : List β
  nodup : blocks.Nodup
  complete : ∀ b, b ∈ blocks
  entry : β
  terminator : β → Terminator β
  drvd_rmp : β → List EcvReg
  accessed : β → EcvReg → Bool
  r_fresh_inst_mp : β → EcvReg → Bool
  fresh_accessed : ∀ b er, r_fresh_inst_mp b er = true → accessed b er = true

/-- An instruction that stands for a register. -/
structure DrvdValue (β : Type) where
  er : EcvReg
  getParent : BB β

/-- A phi node: its register, and the incoming values with their blocks. -/
structure PHINode (β : Type) where
  er : EcvReg
  incoming : List (DrvdValue β × BB β)

/-- A phi node under construction. -/
structure OpenPhi (β : Type) extends PHINode β where
  bb : BB β

/-- The addresses of the blocks, by which a set of them is ordered. -/
structure AddrOrder (β : Type) where
  addr : BB β → Nat
  block : Nat → Option (BB β)
  block_addr : ∀ b, block (addr b) = some b

/-- The first block of a set. -/
def AddrOrder.first {β : Type} (order : AddrOrder β) (s : Finset (BB β)) : Option (BB β) :=
  WithTop.recTopCoe none order.block (s.image order.addr).min

theorem AddrOrder.first_mem {β : Type} (order : AddrOrder β) {s : Finset (BB β)} {b : BB β}
    (h : order.first s = some b) : b ∈ s := by
  unfold first at h
  cases hmin : (s.image order.addr).min with
  | top =>
      rw [hmin] at h
      cases h
  | coe a =>
      obtain ⟨c, hc, rfl⟩ := Finset.mem_image.mp (Finset.mem_of_min hmin)
      rw [hmin] at h
      have h : order.block (order.addr c) = some b := h
      rw [order.block_addr] at h
      exact Option.some.inj h ▸ hc

theorem AddrOrder.eq_empty_of_first {β : Type} (order : AddrOrder β) {s : Finset (BB β)}
    (h : order.first s = none) : s = ∅ := by
  unfold first at h
  cases hmin : (s.image order.addr).min with
  | top => exact Finset.image_eq_empty.mp (Finset.min_eq_top.mp hmin)
  | coe a =>
      obtain ⟨c, -, rfl⟩ := Finset.mem_image.mp (Finset.mem_of_min hmin)
      rw [hmin] at h
      have h : order.block (order.addr c) = none := h
      rw [order.block_addr] at h
      cases h

/-- The function as the pass has rewritten it so far, and the phi nodes that wait for a value. -/
structure PhiState (β : Type) where
  /-- the terminators and `bb_parents` -/
  graph : FlowGraph (BB β)
  bb_regs_bag_map : BB β → β
  r_fresh_inst_mp : BB β → EcvReg → Option (DrvdValue β)
  added_r_phi_mp : BB β → EcvReg → Bool
  phis : BB β → List (PHINode β)
  relay_bb_num : Nat
  phi_bb_queue : List (BB β)
  finished : Finset (BB β)
  /-- the block that is worked on, and the derived registers that are left -/
  cur : Option (BB β × List EcvReg)
  stack : List (OpenPhi β)

variable {β : Type} [DecidableEq β]

/-- The blocks that the node has a value from. -/
def PHINode.blocks (φ : PHINode β) : List (BB β) := φ.incoming.map Prod.snd

/-- `addIncoming`, of a value and the block it stands in. -/
def PHINode.addIncoming (φ : PHINode β) (v : DrvdValue β) : PHINode β :=
  { φ with incoming := φ.incoming ++ [(v, v.getParent)] }

/-- The incoming value of `t_bb` comes through the relay block. -/
def PHINode.redirect (φ : PHINode β) (t_bb relay_bb : BB β) : PHINode β :=
  { φ with incoming := φ.incoming.map fun i =>
      if i.2 = t_bb then (⟨φ.er, relay_bb⟩, relay_bb) else i }

/-- The phi nodes of the relay block for one of the block it leads to. -/
def PHINode.relayPhis (φ : PHINode β) (t_bb : BB β) : List (PHINode β) :=
  (φ.incoming.filter (·.2 = t_bb)).map fun i => ⟨φ.er, [(i.1, t_bb)]⟩

namespace PhiState

variable (f : LiftedCFG β) (s : PhiState β)

/-- The registers that the bag of the block derives. -/
def drvd (b : BB β) : List EcvReg := f.drvd_rmp (s.bb_regs_bag_map b)

/-- `insert` of a value that stands in the block. -/
def insertFresh (b : BB β) (er : EcvReg) : PhiState β :=
  { s with r_fresh_inst_mp := fun b' er' =>
      if b' = b ∧ er' = er then (s.r_fresh_inst_mp b er).or (some ⟨er, b⟩)
      else s.r_fresh_inst_mp b' er' }

/-- A new phi node of a block, before its incoming values are added. -/
def newPhi (b : BB β) (er : EcvReg) : PhiState β :=
  { s.insertFresh b er with stack := ⟨⟨er, []⟩, b⟩ :: s.stack }

/-- The value is added to the phi node that waits for it. -/
def addIncoming (v : DrvdValue β) : PhiState β :=
  match s.stack with
  | [] => s
  | φ :: stack => { s with stack := { φ with toPHINode := φ.toPHINode.addIncoming v } :: stack }

/-- A successor of the block does not derive the register. -/
def relayNeeded (t_bb : BB β) (er : EcvReg) : Bool :=
  (s.graph.succs t_bb).any fun suc => er ∉ s.drvd f suc

/-- The registers that the relay block loads. -/
def relayLoads (t_bb req_bb : BB β) : List EcvReg :=
  (s.drvd f req_bb).filter fun er => (s.r_fresh_inst_mp t_bb er).isNone ∧ er ∉ s.drvd f t_bb

/-- The relay block on the edge from `t_bb` to `req_bb`. -/
def insertRelay (t_bb req_bb : BB β) : PhiState β :=
  let relay_bb := .relay s.relay_bb_num
  let relay_phis := (s.phis req_bb).flatMap fun φ => φ.relayPhis t_bb
  { s with
    graph := s.graph.split t_bb req_bb relay_bb
    bb_regs_bag_map := Function.update s.bb_regs_bag_map relay_bb (s.bb_regs_bag_map req_bb)
    r_fresh_inst_mp := Function.update s.r_fresh_inst_mp relay_bb fun er =>
      if er ∈ relay_phis.map PHINode.er ∨ er ∈ s.relayLoads f t_bb req_bb then
        some ⟨er, relay_bb⟩
      else none
    -- the phi nodes of `req_bb` that had a value from `t_bb` take it from the relay block now
    phis := Function.update
      (Function.update s.phis req_bb ((s.phis req_bb).map fun φ => φ.redirect t_bb relay_bb))
      relay_bb relay_phis
    relay_bb_num := s.relay_bb_num + 1
    phi_bb_queue := s.phi_bb_queue ++ [req_bb] }

/-- `GetDrvdValue`, asked by the phi node on top of the stack for the parent `t_bb`.  A phi
node under construction is not known yet where the relay block is inserted, and the value
asked for must be one the relay block loads; `none` where either check stops the run. -/
def getDrvdValue (φ : OpenPhi β) (t_bb : BB β) : Option (PhiState β) :=
  match s.r_fresh_inst_mp t_bb φ.er with
  | some v => some (s.addIncoming v)
  | none =>
      if φ.er ∈ s.drvd f t_bb then some (s.newPhi t_bb φ.er)
      else if s.relayNeeded f t_bb φ.er then
        if s.stack.any fun ψ => ψ.bb = φ.bb ∧ t_bb ∈ ψ.blocks then none
        else if φ.er ∈ s.relayLoads f t_bb φ.bb then
          some ((s.insertRelay f t_bb φ.bb).addIncoming ⟨φ.er, .relay s.relay_bb_num⟩)
        else none
      else some ((s.insertFresh t_bb φ.er).addIncoming ⟨φ.er, t_bb⟩)

/-- The phi node on top of the stack is one of its block. -/
def closePhi (φ : OpenPhi β) (stack : List (OpenPhi β)) : PhiState β :=
  { s with
    phis := Function.update s.phis φ.bb (φ.toPHINode :: s.phis φ.bb)
    stack := stack }

/-- The block has its phi node for the register. -/
def insertAdded (b : BB β) (er : EcvReg) : PhiState β :=
  { s with added_r_phi_mp := fun b' er' =>
      if b' = b ∧ er' = er then true else s.added_r_phi_mp b' er' }

/-- All parents have given their value. -/
def finishPhi (φ : OpenPhi β) (stack : List (OpenPhi β)) : PhiState β :=
  match stack with
  | [] => s.closePhi φ []
  | ψ :: stack =>
      ((s.closePhi φ (ψ :: stack)).insertAdded φ.bb φ.er).addIncoming ⟨φ.er, φ.bb⟩

/-- The instructions of the block are gone through; every register has its last value. -/
def finishBlock (b : BB β) : PhiState β :=
  { s with
    r_fresh_inst_mp := Function.update s.r_fresh_inst_mp b fun er =>
      if er ∈ s.drvd f b ∨ b.orig?.any (f.accessed · er) ∨ (s.r_fresh_inst_mp b er).isSome then
        some ⟨er, b⟩
      else none
    phi_bb_queue := s.phi_bb_queue ++ s.graph.succs b
    finished := insert b s.finished
    cur := none }

/-- A turn of the pass: the phi node on top asks its next parent, or the next block is taken. -/
def step (order : AddrOrder β) : PhiState β ⊕ Option (PhiState β) :=
  match s.stack with
  | φ :: stack =>
      -- the parents that the phi node has not asked, a relay block made meanwhile among them
      match order.first (s.graph.preds φ.bb \ φ.blocks.toFinset) with
      | some par_bb =>
          match s.getDrvdValue f φ par_bb with
          | some s' => .inl s'
          | none => .inr none
      | none => .inl (s.finishPhi φ stack)
  | [] =>
      match s.cur with
      | some (b, er :: regs) =>
          -- an earlier search may have made the phi node already
          if s.added_r_phi_mp b er then .inl { s with cur := some (b, regs) }
          else .inl ({ s with cur := some (b, regs) }.newPhi b er)
      | some (b, []) => .inl (s.finishBlock f b)
      | none =>
          match s.phi_bb_queue with
          | [] => .inr (some s)
          | b :: queue =>
              if b ∈ s.finished ∨ b.isRelay then .inl { s with phi_bb_queue := queue }
              else .inl { s with phi_bb_queue := queue, cur := some (b, s.drvd f b) }

end PhiState

/-! ### The start -/

/-- The branches of the blocks, as `DirectBranchWithSaveParents` and
`ConditionalBranchWithSaveParents` make them. -/
def LiftedCFG.graph (f : LiftedCFG β) : FlowGraph (BB β) :=
  f.blocks.foldl (fun g b => g.branch (.orig b) ((f.terminator b).successors.map .orig)) .empty

/-- The state the pass starts in. -/
def PhiState.start (f : LiftedCFG β) : PhiState β where
  graph := f.graph
  bb_regs_bag_map := fun
    | .orig b => b
    | .relay _ => f.entry
  r_fresh_inst_mp := fun b er =>
    if b.orig?.any (f.r_fresh_inst_mp · er) then some ⟨er, b⟩ else none
  added_r_phi_mp := fun _ _ => false
  phis := fun _ => []
  relay_bb_num := 0
  phi_bb_queue := [.orig f.entry]
  finished := ∅
  cur := none
  stack := []

end Elfconv
