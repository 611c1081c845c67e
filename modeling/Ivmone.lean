import Ivmone.Lib.Program
import Ivmone.Lib.Footprint
import Ivmone.Lib.Runs
import Ivmone.Lib.Simulation
import Ivmone.Word
import Ivmone.Ivmc
import Ivmone.Opcode
import Ivmone.Stack
import Ivmone.Memory
import Ivmone.State
import Ivmone.Instructions
import Ivmone.Calls
import Ivmone.Execution
import Ivmone.Baseline
import Ivmone.Analysis
import Ivmone.Advanced
import Ivmone.Logic
import Ivmone.InstructionSafety
import Ivmone.CallSafety
import Ivmone.MemoryChecks
import Ivmone.Soundness
import Ivmone.Lockstep
import Ivmone.StackFrame
import Ivmone.OpcodeSafety
import Ivmone.StepSafety
import Ivmone.Decoding
import Ivmone.PaddedCode
import Ivmone.GasCosts
import Ivmone.BaselineSafety
import Ivmone.Blocks
import Ivmone.AnalysisSpec
import Ivmone.Jumpdests
import Ivmone.BlockRequirements
import Ivmone.AdvancedSafety
import Ivmone.AdvancedRuns
import Ivmone.StackSafety
import Ivmone.MemorySafety
import Ivmone.StaticMode
import Ivmone.GasInvariant
import Ivmone.Termination
import Ivmone.ProgramSafety
import Ivmone.RejectedBlocks
import Ivmone.PushData
import Ivmone.InstructionPairs
import Ivmone.Simulation
import Ivmone.Equivalence
import Ivmone.ClampedCosts
import Ivmone.BlockChecks
import Ivmone.CallParts
import Ivmone.Effects
import Ivmone.Failures
import Ivmone.CallRuns
import Ivmone.Regions
import Ivmone.Payments
import Ivmone.GasForwarding
import Ivmone.CallGating
import Ivmone.CopyWindows
import Ivmone.MemoryGas
import Ivmone.SameView
import Ivmone.Reset
import Ivmone.Tracing
import Ivmone.WordOperations
import Ivmone.PushDecoding
import Ivmone.MemoryMap
import Ivmone.GasCorrection
import Ivmone.PayableMemory
import Ivmone.PayableRuns
import Ivmone.WrappedJumps
import Ivmone.GasShift
import Ivmone.GasThreshold
import Ivmone.AdvancedThreshold
import Ivmone.Lib.Leads
import Ivmone.Bytecode
import Ivmone.Fragments
import Ivmone.PushCode
import Ivmone.SyntheticBenchmarks
import Ivmone.Expressions
import Ivmone.HostProtocol
import Ivmone.Lib.Nesting
import Ivmone.Tracers
import Ivmone.TracedExecutions
import Ivmone.Vm
import Ivmone.FrameGas
import Ivmone.Lib.Search
import Ivmone.JumpdestSearch
import Ivmone.RoundBounds
import Ivmone.Lib.Replay
import Ivmone.Replays
import Ivmone.Statuses
import Ivmone.FuzzInputs
import Ivmone.FuzzTarget
