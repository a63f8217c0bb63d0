import AliveNext.TvNext.Identity
import AliveNext.TvNext.WellDefined
import AliveNext.TvNext.Retry
import AliveNext.IR.Encoding
import AliveNext.Smt.Decompose
import AliveNext.IR.LoopNest
import AliveNext.IR.CallLiveness
import AliveNext.IR.ByteRefined
import AliveNext.IR.PartialLoad
import AliveNext.IR.Bounds
import AliveNext.IR.CallArgs
import AliveNext.IR.JoinedMemory
import AliveNext.IR.Memcpy
import AliveNext.IR.MemsetPattern
import AliveNext.Tools.AsmAlign
import AliveNext.LLVM.StoreLayout
import AliveNext.IR.HasStored
import AliveNext.LLVM.BlockOrder
import AliveNext.Tools.UndefInstances
import AliveNext.Tools.NonlocalCount
import AliveNext.Tools.InferAlign
import AliveNext.IR.IndirectCalls
import AliveNext.IR.VarArgsRuns
import AliveNext.IR.LibraryLoops
import AliveNext.IR.UndefPaths
import AliveNext.IR.UndefStripExact
import AliveNext.Tools.PtrCompare
import AliveNext.IR.BinOpShape
import AliveNext.IR.BlockDisjoint
import AliveNext.IR.LivenessBits
import AliveNext.IR.ByteLayout
import AliveNext.IR.AggregateForms
import AliveNext.Tools.IntLiteral
import AliveNext.Tools.ParsePredicate
import AliveNext.Tools.Typings
import AliveNext.Util.JobTokens
import AliveNext.Tools.CopyOrder
import AliveNext.TvNext.RangeValid
import AliveNext.TvNext.DiffRegions
import AliveNext.TvNext.SliceReach
import AliveNext.IR.SymExec
