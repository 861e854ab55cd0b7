import SmlnjLlvm.AArch64.ExpandChunks
import SmlnjLlvm.Adt.SCCIterator
import SmlnjLlvm.Asdl.CfgPickle
import SmlnjLlvm.Bitstream.MalformedStreams
import SmlnjLlvm.Bitstream.SkipRecord
import SmlnjLlvm.Codegen.Agreement
import SmlnjLlvm.Codegen.Phi
import SmlnjLlvm.IR.NoWrapRegions
import SmlnjLlvm.IR.RangeCounts
import SmlnjLlvm.IR.RangeDivision
import SmlnjLlvm.RISCV.Materialisation
import SmlnjLlvm.Support.KnownBitsShift
import SmlnjLlvm.Support.DivisionByConstant
import SmlnjLlvm.Support.SignedDivisionByConstant
import SmlnjLlvm.IR.DivisionExpansion
import SmlnjLlvm.DebugInfo.LineProgram
import SmlnjLlvm.DebugInfo.GsymRoundTrip
import SmlnjLlvm.DebugInfo.GsymParseFaults
import SmlnjLlvm.Support.ScaledSums
import SmlnjLlvm.Analysis.MassDistribution
import SmlnjLlvm.Scheduling.CachedPaths
import SmlnjLlvm.Scheduling.OrderUpdates
import SmlnjLlvm.Asdl.IntegerEquality
import SmlnjLlvm.Codegen.TrappingArith
import SmlnjLlvm.Support.IntEqClasses
import SmlnjLlvm.DebugInfo.GsymInlineLookup
import SmlnjLlvm.Support.APIntOverflow
import SmlnjLlvm.Support.QuadraticSolution
import SmlnjLlvm.Support.APIntInverse
import SmlnjLlvm.Codegen.Comparison
import SmlnjLlvm.Codegen.MemManager
import SmlnjLlvm.Codegen.LiveRangeMerge
import SmlnjLlvm.Support.APIntToString
import SmlnjLlvm.Support.APIntLongDivision
import SmlnjLlvm.IR.RangeOverflow
import SmlnjLlvm.Support.KnownBitsSat
import SmlnjLlvm.ExecutionEngine.MachOAArch64
import SmlnjLlvm.Support.APIntBitFields
import SmlnjLlvm.Support.NormalizeProbabilities
import SmlnjLlvm.SwitchLowering.WorkItemSplit
import SmlnjLlvm.Support.JSONEscapes
import SmlnjLlvm.IR.RangeKnownBits
import SmlnjLlvm.Adt.SCCMembers
import SmlnjLlvm.Adt.SiblingSizes
import SmlnjLlvm.Support.Base64
import SmlnjLlvm.Support.DAGDeltaAlgorithm
import SmlnjLlvm.Support.GlobPattern
