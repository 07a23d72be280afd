import FerrumDB.Lib.CrashLogic
import FerrumDB.Lib.ByteCodec
import FerrumDB.Lib.OrderedMap
import FerrumDB.Lib.Overlay
import FerrumDB.Lib.BinarySearch
import FerrumDB.Lib.FramedLog
import FerrumDB.Lib.ShiftRegister
import FerrumDB.Lib.PrefixRange
import FerrumDB.Lib.Lru
import FerrumDB.Value
import FerrumDB.Disk
import FerrumDB.Wal
import FerrumDB.SsTable
import FerrumDB.Store
import FerrumDB.Lib.Protobuf
import FerrumDB.Wire
import FerrumDB.Calls
import FerrumDB.SsTable.Layout
import FerrumDB.SsTable.Records
import FerrumDB.SsTable.Bloom
import FerrumDB.SsTable.Locate
import FerrumDB.SsTable.Read
import FerrumDB.SsTable.Open
import FerrumDB.SsTable.RoundTrip
import FerrumDB.SsTable.Tiling
import FerrumDB.SsTable.Corruption
import FerrumDB.Wal.Framing
import FerrumDB.Wal.Rules
import FerrumDB.Wal.Recovery
import FerrumDB.Layers
import FerrumDB.Store.Replay
import FerrumDB.Store.Invariant
import FerrumDB.Store.Write
import FerrumDB.Store.FileNames
import FerrumDB.Store.Flush
import FerrumDB.Store.Keeps
import FerrumDB.Store.Open
import FerrumDB.Store.Scan
import FerrumDB.Store.Crash
import FerrumDB.Operations
import FerrumDB.Reopening
import FerrumDB.Refinement
import FerrumDB.Oversize
import FerrumDB.FlushFields
import FerrumDB.CrashSafety
import FerrumDB.ScanReads
import FerrumDB.Transactions
import FerrumDB.WriteFaults
import FerrumDB.CompactionCrash
import FerrumDB.SsTable.Lookup
import FerrumDB.Store.PartialTable
import FerrumDB.FlushCrash
import FerrumDB.LogReplay
import FerrumDB.Sequences
import FerrumDB.Store.Faults
import FerrumDB.CallLists
import FerrumDB.Store.WriteCalls
import FerrumDB.Sessions
import FerrumDB.ScanLayouts
import FerrumDB.Compaction
import FerrumDB.OversizeMerge
import FerrumDB.Table
import FerrumDB.ByteValues
import FerrumDB.OversizeKey
import FerrumDB.Database
import FerrumDB.Store.Methods
import FerrumDB.PrefixScans
import FerrumDB.ByteMaps
import FerrumDB.Store.LockFile
import FerrumDB.Database.Inodes
import FerrumDB.Database.Handles
import FerrumDB.OneWriter
import FerrumDB.Panics
import FerrumDB.Wal.Malformed
import FerrumDB.SsTable.Malformed
import FerrumDB.SsTable.CacheRuns
import FerrumDB.MemoryAccounting
import FerrumDB.Database.Tree
import FerrumDB.Database.Paths
import FerrumDB.Database.TreeCalls
import FerrumDB.Database.Named
import FerrumDB.TableNames
import FerrumDB.DatabaseMaps
import FerrumDB.FaultyCalls
import FerrumDB.BlindOpening
import FerrumDB.InterruptedOpening
import FerrumDB.InterruptedDelete
import FerrumDB.SharedTables
import FerrumDB.SsTable.WellFormed
import FerrumDB.Lib.Cost
import FerrumDB.IoCost
import FerrumDB.Store.AnyFiles
import FerrumDB.AnyDirectory
import FerrumDB.SsTable.Rotten
import FerrumDB.Echoes
import FerrumDB.Store.Repeats
import FerrumDB.RottenTables
