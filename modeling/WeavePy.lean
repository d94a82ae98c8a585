import WeavePy.Rust
import WeavePy.Lib.LinearProbing
import WeavePy.DictMap.Key
import WeavePy.DictMap.Table
import WeavePy.DictMap.Probe
import WeavePy.DictMap.Index
import WeavePy.DictMap.Lookup
import WeavePy.DictMap.Rebuild
import WeavePy.DictMap.Mutate
import WeavePy.DictMap.Reorder
import WeavePy.DictMap.Runs
import WeavePy.DictMap.NativeLookup
import WeavePy.Lib.Hoare
import WeavePy.Lib.StableSort
import WeavePy.Lib.Slab
import WeavePy.Lib.OrderedMap
import WeavePy.InstDict.SharedKeys
import WeavePy.InstDict.SplitValues
import WeavePy.InstDict.Layout
import WeavePy.InstDict.Operations
import WeavePy.InstDict.Effects
import WeavePy.InstDict.Runs
import WeavePy.Lib.AssocList
import WeavePy.DictMap.Pairs
import WeavePy.Odict.DictOps
import WeavePy.Odict.Operations
import WeavePy.Odict.Halves
import WeavePy.Odict.Runs
import WeavePy.ContextVars.Runs
import WeavePy.Gc.Registry
import WeavePy.Gc.Placement
import WeavePy.Gc.Operations
import WeavePy.Gc.Sweeps
import WeavePy.Gc.Rebuilding
import WeavePy.Gc.RegistryRuns
import WeavePy.Timsort.State
import WeavePy.Timsort.Gallop
import WeavePy.Timsort.NaturalRuns
import WeavePy.Timsort.MergeLo
import WeavePy.Timsort.MergeHi
import WeavePy.Timsort.Sort
import WeavePy.TypeCache.Runs
import WeavePy.NativeCode.Forcing
import WeavePy.Lexer.Numbers
import WeavePy.Deque.Runs
import WeavePy.Csv.RoundTrip
import WeavePy.Codecs.EscapeChunks
import WeavePy.Codecs.Utf7Inverse
import WeavePy.Flowgraph.ConstSlice
import WeavePy.Flowgraph.BoundLoads
import WeavePy.Lib.StarSwaps
import WeavePy.Flowgraph.Swaptimize
import WeavePy.LineJump.Termination
import WeavePy.CpythonCode.ExceptionTrip
import WeavePy.InstDict.Readiness
import WeavePy.Mangle
import WeavePy.Lib.Linearize
import WeavePy.Types.C3
import WeavePy.Random.Runs
import WeavePy.ContextVars.Switching
import WeavePy.CompileQueue.Workers
import WeavePy.ConstFold.Sequences
import WeavePy.PercentFormat.Refines
import WeavePy.TypeCache.LeafRuns
import WeavePy.Heapq.Ordered
import WeavePy.Heapq.Hostile
import WeavePy.QuotedPrintable.LineLength
import WeavePy.Base64.RoundTrip
import WeavePy.Struct.EveryFormat
import WeavePy.Slots.Runs
import WeavePy.Timsort.Powersort
import WeavePy.DateTime.Shift
import WeavePy.Math.Gcd
import WeavePy.Math.Rounding
import WeavePy.Decimal.Hash
import WeavePy.Decimal.Parse
import WeavePy.Json.Grammar
import WeavePy.Regex.Snapshots
import WeavePy.Sync.Cells
import WeavePy.Sync.Locks
import WeavePy.LruCache.Runs
