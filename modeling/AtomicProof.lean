import AtomicProof.Opcode
import AtomicProof.ScriptNum
import AtomicProof.StackState
import AtomicProof.Hex
import AtomicProof.Simulator
import AtomicProof.ScriptCodec
import AtomicProof.Disassembly
import AtomicProof.Conditionals
import AtomicProof.PushCodec
import AtomicProof.Script
import AtomicProof.Atom
import AtomicProof.BytecodeIR
import AtomicProof.Peephole
import AtomicProof.PeepholeAtoms
import AtomicProof.PeepholeRules
import AtomicProof.PeepholeSound
import AtomicProof.IfTail
import AtomicProof.IfTailEffect
import AtomicProof.IfTailSound
import AtomicProof.IfTailParser
import AtomicProof.IfTailPlan
import AtomicProof.IfTailPlanValid
import AtomicProof.IfTailNormal
import AtomicProof.IfTailTrace
import AtomicProof.Fixpoint
import AtomicProof.ValueTable
import AtomicProof.Lifetime
import AtomicProof.LifetimeFixpoints
import AtomicProof.LifetimeSound
import AtomicProof.Generator
import AtomicProof.LegacyAdapter
import AtomicProof.Splitters
import AtomicProof.RuntimeCodec
import AtomicProof.ScriptNumCodecs
import AtomicProof.EmitText
import AtomicProof.SymbolTable
import AtomicProof.SlotMoves
import AtomicProof.Visitor
import AtomicProof.BlockCleanup
import AtomicProof.PermutationRank
import AtomicProof.Relaxation
import AtomicProof.GoalSearch
import AtomicProof.StackPlanner
import AtomicProof.MovePlanner
import AtomicProof.CopyPlanner
import AtomicProof.CopyAssignment
import AtomicProof.RuntimeValue
import AtomicProof.BuiltinRuntime
import AtomicProof.BuiltinAgreement
import AtomicProof.Environment
import AtomicProof.Truth
import AtomicProof.PlaceholderSpelling
import AtomicProof.Materializer
import AtomicProof.MaterializerSound
import AtomicProof.FreshSupply
import AtomicProof.ArtifactRewriter
import AtomicProof.AliasChain
import AtomicProof.ParameterBinding
import AtomicProof.ParameterCapture
import AtomicProof.ArgumentLayout
import AtomicProof.ArgumentLayoutSound
import AtomicProof.HalfOpen
import AtomicProof.Expansion
import AtomicProof.ImportResolver
import AtomicProof.GroupedFold
import AtomicProof.DebugInfo
import AtomicProof.DebugRead
import AtomicProof.DebugCopy
import AtomicProof.DebugRemap
import AtomicProof.IfTailDebug
import AtomicProof.Slice
import AtomicProof.PackedSplit
import AtomicProof.SignedWord
import AtomicProof.RangePlan
import AtomicProof.RangeLoop
import AtomicProof.StaticInteger
import AtomicProof.SignMagnitude
import AtomicProof.VMArithmetic
import AtomicProof.NumberBytes
import AtomicProof.SymbolRename
import AtomicProof.Ledger
import AtomicProof.OpStack
import AtomicProof.OrderedRecord
import AtomicProof.StructBytes
import AtomicProof.Segment
import AtomicProof.PeepholeMap
import AtomicProof.RewriterTotal
import AtomicProof.PeepholePass
import AtomicProof.PeepholeFixpoint
import AtomicProof.Operands
import AtomicProof.SizeCall
import AtomicProof.MerkleDamgard
import AtomicProof.HashDigest
import AtomicProof.LifetimePaths
import AtomicProof.LifetimeDominance
import AtomicProof.LifetimeComplete
import AtomicProof.Lexer
import AtomicProof.LexerLayout
import AtomicProof.KeyedUpdate
import AtomicProof.RuntimeArgument
import AtomicProof.JsonAssignments
import AtomicProof.Base58
import AtomicProof.ValueRegistry
import AtomicProof.ScopeSnapshots
import AtomicProof.ScopeValidity
import AtomicProof.ControlFlowAnalysis
import AtomicProof.CallIsolation
import AtomicProof.ExpressionSound
import AtomicProof.PeepholeRun
import AtomicProof.PassManager
import AtomicProof.FinalizePass
import AtomicProof.FinalizeRun
import AtomicProof.OperatorLowering
import AtomicProof.OperatorMeaning
import AtomicProof.ConstantFolder
import AtomicProof.ConstantFolderSound
import AtomicProof.FoldedCounts
