import DartVm.Canonicalize.BinaryIntegerOpSound
import DartVm.Canonicalize.IntConverter
import DartVm.BigInt.Powers
import DartVm.BigInt.DivisionOperators
import DartVm.CodeSourceMap.Correct
import DartVm.CompactHash.Iterables
import DartVm.CompactHash.Overflow
import DartVm.Convert.DecoderSinks
import DartVm.Convert.LineSplitter
import DartVm.DateTime.Correct
import DartVm.DateTime.Utc
import DartVm.DispatchTable.Correct
import DartVm.Ffi.Compounds
import DartVm.FlowAnalysis.Correct
import DartVm.FlowAnalysis.Join
import DartVm.Loops.Arithmetic
import DartVm.Loops.InRange
import DartVm.ObjectIdRing.Correct
import DartVm.ParallelMove.Correct
import DartVm.RegExp.ClassCode
import DartVm.Platform.StringHash
import DartVm.Relocation.Trampolines
import DartVm.Tables.ChainedMap
import DartVm.Tables.HashMap
import DartVm.Tables.PortMap
import DartVm.Tables.WeakTable
import DartVm.Unicode.RoundTrip
import DartVm.Uri.DotSegments
import DartVm.Uri.Query
