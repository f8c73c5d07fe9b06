import Elfconv.Lib.Frame
import Elfconv.Lib.Switch
import Elfconv.Lib.Run
import Elfconv.Lib.Arena
import Elfconv.Lib.Machine
import Elfconv.Lib.Memo
import Elfconv.Lib.Forest
import Elfconv.Lib.Component
import Elfconv.Lib.PostOrder
import Elfconv.Runtime.Machine
import Elfconv.Runtime.Svc
import Elfconv.Runtime.Handlers
import Elfconv.Runtime.Switches
import Elfconv.Runtime.Effects
import Elfconv.Runtime.SvcCall
import Elfconv.Runtime.Errno
import Elfconv.Runtime.Heap
import Elfconv.Runtime.Translate
import Elfconv.Recovery.Instruction
import Elfconv.Recovery.Lift
import Elfconv.Recovery.Closure
import Elfconv.Recovery.Recover
import Elfconv.Recovery.Traces
import Elfconv.Recovery.IndirectBr
import Elfconv.Lib.Simulation
import Elfconv.Lib.Encoding
import Elfconv.Recovery.Blocks
import Elfconv.Recovery.Execution
import Elfconv.Recovery.Simulation
import Elfconv.Recovery.Following
import Elfconv.Recovery.FunctionTable
import Elfconv.VirtualRegs.Reg
import Elfconv.VirtualRegs.Width
import Elfconv.VirtualRegs.RegMap
import Elfconv.VirtualRegs.TailCalls
import Elfconv.VirtualRegs.Bags
import Elfconv.VirtualRegs.Merge
import Elfconv.VirtualRegs.RemoveLoop
import Elfconv.VirtualRegs.Derived
import Elfconv.VirtualRegs.Preceding
import Elfconv.VirtualRegs.Succeeding
import Elfconv.VirtualRegs.Loops
import Elfconv.VirtualRegs.ClosedForm
import Elfconv.VirtualRegs.DrvdClass
import Elfconv.VirtualRegs.JoinRegInfo
import Elfconv.Lib.FlowGraph
import Elfconv.VirtualRegs.PhiInv
import Elfconv.VirtualRegs.RelayBlock
import Elfconv.VirtualRegs.PhiSteps
import Elfconv.VirtualRegs.PhiEnds
import Elfconv.VirtualRegs.SSAForm
import Elfconv.VirtualRegs.ReachingValues
import Elfconv.Runtime.OpenFlags
import Elfconv.Runtime.InitialStack
import Elfconv.Lib.CInt
import Elfconv.Lib.Words
import Elfconv.Semantics.Operators
import Elfconv.Semantics.Integer
import Elfconv.Semantics.Flags
import Elfconv.Semantics.Conditions
import Elfconv.Lib.BitPattern
import Elfconv.Lib.Lanes
import Elfconv.Semantics.BitMasks
import Elfconv.Semantics.BitField
import Elfconv.Semantics.BitFieldAliases
import Elfconv.Semantics.Vectors
import Elfconv.Semantics.ShiftLong
import Elfconv.Semantics.LaneOps
import Elfconv.Semantics.LaneFolds
import Elfconv.Semantics.BitCount
import Elfconv.Semantics.LaneInst
import Elfconv.Semantics.LaneArm
import Elfconv.Lib.ByteMemory
import Elfconv.Semantics.Execute
import Elfconv.Semantics.LaneMove
import Elfconv.Semantics.LaneMoveArm
import Elfconv.Semantics.Atomics
import Elfconv.Semantics.ShiftRegs
import Elfconv.Semantics.OptBlock
import Elfconv.Semantics.Indexed
import Elfconv.Semantics.IndexedArm
import Elfconv.Semantics.IndexedBlock
import Elfconv.Semantics.IndexedRun
import Elfconv.Semantics.Loads
import Elfconv.Semantics.LoadsArm
import Elfconv.Semantics.LaterReads
import Elfconv.Decoder.Extract
import Elfconv.Decoder.ArmInst
import Elfconv.Decoder.DecodedInst
import Elfconv.Decoder.Decode
import Elfconv.Decoder.Isel
import Elfconv.Decoder.Arch
import Elfconv.Decoder.Table
import Elfconv.Decoder.ArmExec
import Elfconv.Decoder.Gives
import Elfconv.Decoder.Follows
import Elfconv.Decoder.FollowsData
import Elfconv.Decoder.Outcome
import Elfconv.Decoder.Program
