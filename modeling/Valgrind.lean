import Valgrind.Basics.Machine
import Valgrind.Basics.Result
import Valgrind.Lib.Intervals
import Valgrind.Aspacemgr.Segment
import Valgrind.Aspacemgr.PageMap
import Valgrind.Aspacemgr.Queries
import Valgrind.Aspacemgr.Ops
import Valgrind.Aspacemgr.OpSpecs
import Valgrind.Aspacemgr.Steps
import Valgrind.Aspacemgr.Window
import Valgrind.Aspacemgr.Advisory
import Valgrind.Aspacemgr.ProcMaps
import Valgrind.Aspacemgr.SyncCheck
import Valgrind.Aspacemgr.Translations
import Valgrind.Aspacemgr.ClientHeap
import Valgrind.Lib.ByteMem
import Valgrind.Lib.Ring
import Valgrind.MallocFree.Block
import Valgrind.MallocFree.Arena
import Valgrind.MallocFree.Cells
import Valgrind.MallocFree.Marks
import Valgrind.MallocFree.BlockSpecs
import Valgrind.MallocFree.Shape
import Valgrind.MallocFree.Malloc
import Valgrind.MallocFree.Free
import Valgrind.MallocFree.Soundness
import Valgrind.MallocFree.Complete
import Valgrind.MallocFree.Calloc
import Valgrind.Lib.AvlTree
import Valgrind.Avl.CoreSpecs
import Valgrind.Avl.WordFM
import Valgrind.Avl.OSet
import Valgrind.Avl.Reachable
import Valgrind.Avl.StackDepth
import Valgrind.Memcheck.VaBits
import Valgrind.Memcheck.SecMaps
import Valgrind.Memcheck.AuxMap
import Valgrind.Memcheck.SecVBits
import Valgrind.Memcheck.Perms
import Valgrind.Memcheck.Stack
import Valgrind.Memcheck.LoadStore
import Valgrind.Memcheck.LoadStoreSpecs
import Valgrind.Memcheck.Copy
import Valgrind.Memcheck.ShadowRuns
import Valgrind.Memcheck.RangeExact
import Valgrind.Lib.Straight
import Valgrind.Lib.SortedMerge
import Valgrind.Lib.Lru
import Valgrind.Vex.Ops
import Valgrind.Vex.IR
import Valgrind.Vex.Semantics
import Valgrind.Vex.DeadCode
import Valgrind.Vex.Sanity
import Valgrind.Vex.GuestState
import Valgrind.Vex.RedundantGet
import Valgrind.Vex.RedundantPut
import Valgrind.Vex.Aliasing
import Valgrind.Vex.Cse
import Valgrind.Vex.GetIPutI
import Valgrind.Vex.Flatten
import Valgrind.Drd.VectorClock
import Valgrind.Drd.ClockMinimum
import Valgrind.Lib.BitArray
import Valgrind.Lib.KeyedList
import Valgrind.Lib.Sharing
import Valgrind.Lib.MergeJoin
import Valgrind.Drd.Bitmap
import Valgrind.Drd.BitmapHeap
import Valgrind.Drd.BitmapWords
import Valgrind.Drd.BitmapRanges
import Valgrind.Drd.BitmapQueries
import Valgrind.Drd.BitmapWhole
import Valgrind.Drd.BitmapRuns
import Valgrind.Demangle.ZDemangle
import Valgrind.Demangle.Bounds
import Valgrind.Cachegrind.CacheSim
import Valgrind.Cachegrind.FalseHits
import Valgrind.Helgrind.WordSetRuns
import Valgrind.Helgrind.WordSetSets
import Valgrind.Helgrind.ShadowValue
import Valgrind.Helgrind.Msm
import Valgrind.Helgrind.MsmRuns
import Valgrind.Helgrind.LockGraph
import Valgrind.Helgrind.LockGraphRuns
import Valgrind.Lib.CutRanges
import Valgrind.Debuginfo.Storage
import Valgrind.Debuginfo.Symtab
import Valgrind.Debuginfo.LineInfo
import Valgrind.Coregrind.ExeContext
import Valgrind.Coregrind.HashTable
import Valgrind.Coregrind.LibcBase
import Valgrind.Lib.Selection
import Valgrind.Lib.Reach
import Valgrind.Lib.Completions
import Valgrind.Memcheck.Translate
import Valgrind.Memcheck.TranslateExact
import Valgrind.Memcheck.LeakCheck
import Valgrind.Memcheck.LeakScan
import Valgrind.Memcheck.LeakReport
import Valgrind.Memcheck.LeakShadows
import Valgrind.Memcheck.LeakMarks
import Valgrind.Memcheck.LeakTotals
import Valgrind.Massif.XTree
import Valgrind.Massif.Snapshots
import Valgrind.Massif.SnapshotSpecs
import Valgrind.Massif.SnapshotRuns
import Valgrind.Massif.Heap
import Valgrind.Massif.HeapRuns
import Valgrind.Vex.X86FlagSpecs
import Valgrind.Vex.X86Spec
import Valgrind.Lib.Knockout
import Valgrind.Debuginfo.SymbolChoice
import Valgrind.Debuginfo.VarScope
import Valgrind.Lib.LinkedList
import Valgrind.Drd.Segments
import Valgrind.Drd.BitmapRaces
import Valgrind.Drd.BitmapClear
import Valgrind.Drd.BitmapEqual
import Valgrind.Drd.BitmapSets
import Valgrind.Coregrind.StringMatch
import Valgrind.Lib.SinglyLinked
import Valgrind.Coregrind.HashNodes
import Valgrind.Coregrind.HashRuns
import Valgrind.Massif.MinInterval
import Valgrind.Massif.FailedRealloc
import Valgrind.Memcheck.MallocWrappers
import Valgrind.Helgrind.MallocMeta
import Valgrind.Tools.Calloc
import Valgrind.Memcheck.MempoolTrim
import Valgrind.Helgrind.LockMisuse
import Valgrind.Coregrind.StringSearch
import Valgrind.MallocFree.FindSb
import Valgrind.Coregrind.LineReader
import Valgrind.Coregrind.Suppressions
import Valgrind.Helgrind.NoAccess
import Valgrind.Massif.StackTraces
import Valgrind.Coregrind.XArray
import Valgrind.Lib.Causality
import Valgrind.Helgrind.Timestamps
import Valgrind.Helgrind.SegmentGraph
import Valgrind.Helgrind.SegmentRuns
import Valgrind.Memcheck.FreedQueue
import Valgrind.Avl.WordBag
