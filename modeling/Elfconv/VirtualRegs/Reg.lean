/-
Elfconv/VirtualRegs/Reg.lean

The registers the lifter keeps in virtual registers, and the classes they are accessed by.

A `W` and an `X` access are accesses to one register by two classes; `ERCSize` is the width
of a class.  `CheckPassedArgsRegs` and `CheckPassedReturnRegs` compare the number alone, so
they hold of the general and the vector register of a number at once.
-/
import Elfconv.Runtime.Machine

namespace Elfconv

/-- `RegKind`: the general and the vector registers, and those that stand alone. -/
inductive RegKind
  | General | Vector | Special
  deriving DecidableEq, Repr

/-- `EcvReg`: a register, whatever width it is accessed by. -/
structure EcvReg where
  reg_kind : RegKind
  number : Nat
  deriving DecidableEq, Repr

/-- The register classes; `F` marks the vector arrangements of floating point. -/
inductive ERC
  | RegW | RegX
  | RegB | RegH | RegS | RegD | RegQ | RegV
  | Reg8B | Reg16B | Reg4H | Reg8H | Reg2S | Reg2SF | Reg4S | Reg4SF
  | Reg1D | Reg1DF | Reg2D | Reg2DF
  | RegP
  deriving DecidableEq, Repr

/-- The bits of a class; `P` stands for a pointer. -/
def ERCSize : ERC → Nat
  | .RegB => 8
  | .RegH => 16
  | .RegW | .RegS => 32
  | .RegX | .RegP | .RegD | .Reg8B | .Reg4H | .Reg2S | .Reg2SF | .Reg1D | .Reg1DF => 64
  | .RegQ | .RegV | .Reg16B | .Reg8H | .Reg4S | .Reg4SF | .Reg2D | .Reg2DF => 128

theorem ERCSize_le (erc : ERC) : ERCSize erc ≤ 128 := by
  cases erc <;> decide

/-- The number of the stack pointer. -/
def SP_ORDER : Nat := 32

namespace EcvReg

/-- The registers that callers hand over. -/
def CheckPassedArgsRegs (er : EcvReg) : Bool := er.number ≤ 8 || er.number == SP_ORDER

/-- The registers that callees hand back. -/
def CheckPassedReturnRegs (er : EcvReg) : Bool := er.number ≤ 1 || er.number == SP_ORDER

end EcvReg

/-- The classes `GetRegInfo` gives for the names of a kind of register. -/
def RegKind.allows : RegKind → ERC → Bool
  | .General, .RegW | .General, .RegX => true
  | .General, _ => false
  | .Vector, .RegW | .Vector, .RegX | .Vector, .RegP => false
  | .Vector, _ => true
  -- these have one class each, and are never cast
  | .Special, _ => false

/-- An access to a general or a vector register. -/
structure Access where
  er : EcvReg
  erc : ERC
  allowed : er.reg_kind.allows erc = true
  deriving DecidableEq

end Elfconv
