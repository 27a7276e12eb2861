import Kronos.Lib.Bisect
import Kronos.Lib.Blocks
import Kronos.Lib.BytesOrder
import Kronos.Lib.Crc
import Kronos.Lib.Fitting
import Kronos.Lib.Framing
import Kronos.Lib.Keyed
import Kronos.Lib.Linked
import Kronos.Lib.LittleEndian
import Kronos.Lib.NewestWins
import Kronos.Lib.Run
import Kronos.Lib.Slots
import Kronos.Ref.Arena
import Kronos.Ref.Block
import Kronos.Ref.BlockCache
import Kronos.Ref.BloomFilter
import Kronos.Ref.CheckedReader
import Kronos.Ref.Compaction
import Kronos.Ref.Compactors
import Kronos.Ref.Crc32c
import Kronos.Ref.DB
import Kronos.Ref.Event
import Kronos.Ref.FlushFault
import Kronos.Ref.Key
import Kronos.Ref.LinkedMemTable
import Kronos.Ref.MemTable
import Kronos.Ref.Metrics
import Kronos.Ref.Process
import Kronos.Ref.Query
import Kronos.Ref.Recovery
import Kronos.Ref.SSTable
import Kronos.Ref.Server
import Kronos.Ref.SkipList
import Kronos.Ref.SkipThreads
import Kronos.Ref.StoredQuery
import Kronos.Ref.SymbolTable
import Kronos.Ref.Synthetic
import Kronos.Ref.TableFile
import Kronos.Ref.Threads
import Kronos.Ref.Wal
import Kronos.Ref.Writers
import Kronos.Spec.Arena
import Kronos.Spec.CachedSession
import Kronos.Spec.CloseRace
import Kronos.Spec.Compacted
import Kronos.Spec.Crash
import Kronos.Spec.Crc32c
import Kronos.Spec.CutShort
import Kronos.Spec.FailedIntern
import Kronos.Spec.FileNumbers
import Kronos.Spec.FlushFault
import Kronos.Spec.FlushOrder
import Kronos.Spec.FreshBlocks
import Kronos.Spec.Histories
import Kronos.Spec.Lifecycle
import Kronos.Spec.Lifetime
import Kronos.Spec.LogGrowth
import Kronos.Spec.LogOrder
import Kronos.Spec.LruCache
import Kronos.Spec.OneCopy
import Kronos.Spec.Percentile
import Kronos.Spec.ReadMap
import Kronos.Spec.Reopened
import Kronos.Spec.RoundTrip
import Kronos.Spec.SequenceIds
import Kronos.Spec.Served
import Kronos.Spec.Server
import Kronos.Spec.Sizes
import Kronos.Spec.SkipIteration
import Kronos.Spec.SortedMap
import Kronos.Spec.StoredHistories
import Kronos.Spec.Symbols
import Kronos.Spec.Tracker
import Kronos.Spec.Untrusted
import Kronos.Spec.WalLog
import Kronos.Spec.WalReader
import Kronos.Proofs.Arena
import Kronos.Proofs.BlockCache
import Kronos.Proofs.BlockFormat
import Kronos.Proofs.BlockRange
import Kronos.Proofs.BloomFilter
import Kronos.Proofs.Burst
import Kronos.Proofs.CachedSession
import Kronos.Proofs.CloseRace
import Kronos.Proofs.CompactHandOff
import Kronos.Proofs.Compacted
import Kronos.Proofs.Crc32c
import Kronos.Proofs.CutShort
import Kronos.Proofs.Directory
import Kronos.Proofs.Durable
import Kronos.Proofs.Encoding
import Kronos.Proofs.FailedIntern
import Kronos.Proofs.FileNumbers
import Kronos.Proofs.FlushFault
import Kronos.Proofs.FlushHandOff
import Kronos.Proofs.FlushOrder
import Kronos.Proofs.FreshBlocks
import Kronos.Proofs.Handing
import Kronos.Proofs.Histories
import Kronos.Proofs.Levels
import Kronos.Proofs.Lifecycle
import Kronos.Proofs.Lifetime
import Kronos.Proofs.LogGrowth
import Kronos.Proofs.LogOrder
import Kronos.Proofs.LruCache
import Kronos.Proofs.Merge
import Kronos.Proofs.OneCopy
import Kronos.Proofs.Percentile
import Kronos.Proofs.Process
import Kronos.Proofs.QueryLimit
import Kronos.Proofs.Querying
import Kronos.Proofs.ReadCompact
import Kronos.Proofs.ReadInvariant
import Kronos.Proofs.ReadRefinement
import Kronos.Proofs.Recovered
import Kronos.Proofs.Rejected
import Kronos.Proofs.Reopened
import Kronos.Proofs.Replaced
import Kronos.Proofs.Restart
import Kronos.Proofs.Restarted
import Kronos.Proofs.RoundTrip
import Kronos.Proofs.Scan
import Kronos.Proofs.SequenceIds
import Kronos.Proofs.Served
import Kronos.Proofs.Server
import Kronos.Proofs.Sizes
import Kronos.Proofs.SkipInsert
import Kronos.Proofs.SkipIteration
import Kronos.Proofs.SkipList
import Kronos.Proofs.SortedMap
import Kronos.Proofs.StoredHistories
import Kronos.Proofs.StoredQuery
import Kronos.Proofs.SymbolCrash
import Kronos.Proofs.SymbolFile
import Kronos.Proofs.Symbols
import Kronos.Proofs.TableRead
import Kronos.Proofs.TableWrite
import Kronos.Proofs.Tables
import Kronos.Proofs.Tracker
import Kronos.Proofs.Untrusted
import Kronos.Proofs.WalAppend
import Kronos.Proofs.WalFaults
import Kronos.Proofs.WalFormat
import Kronos.Proofs.WalLayout
import Kronos.Proofs.WalReader
import Kronos.Proofs.WalRecovery
import Kronos.Proofs.Writers
