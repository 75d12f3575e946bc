import AndyEnv.Lib.Search
import AndyEnv.Tsm1.DataFile
import AndyEnv.Tsm1.Combine
import AndyEnv.Tsm1.Compaction
import AndyEnv.Tsm1.Rewrite
import AndyEnv.Tsm1.SingleFile
import AndyEnv.Lib.Run
import AndyEnv.Tsm1.Engine
import AndyEnv.Tsm1.FileRange
import AndyEnv.Tsm1.Separation
import AndyEnv.Lib.Files
import AndyEnv.Tsm1.Wal.Entry
import AndyEnv.Tsm1.Wal.Log
import AndyEnv.Tsm1.Wal.Restart
import AndyEnv.Tsm1.Wal.Retention
import AndyEnv.Tsm1.Wal.Replay
import AndyEnv.Lib.Bits
import AndyEnv.Lib.Cursor
import AndyEnv.Lib.Varint
import AndyEnv.Tsm1.Codec.Float
import AndyEnv.Tsm1.Codec.Int64
import AndyEnv.Tsm1.Codec.Int64Runs
import AndyEnv.Tsm1.Codec.Timestamp
import AndyEnv.Lib.Escape
import AndyEnv.Lib.Except
import AndyEnv.Lib.Strconv
import AndyEnv.Models.Batch
import AndyEnv.Meta.Data
import AndyEnv.Meta.Marshal
import AndyEnv.Meta.Survival
import AndyEnv.Tsm1.Codec.Block
import AndyEnv.Lib.KeyedCursor
import AndyEnv.Tsm1.AscendingReads
import AndyEnv.Tsm1.AscendingScan
import AndyEnv.Tsm1.CombinedCursor
import AndyEnv.Tsm1.DescendingReads
import AndyEnv.Tsm1.DescendingScan
import AndyEnv.Tsm1.Purge
import AndyEnv.Tsm1.Wal.DeleteMeasurement
import AndyEnv.Tsm1.Wal.TornTail
import AndyEnv.Bz1.AscendingScan
import AndyEnv.Bz1.DescendingReads
import AndyEnv.Bz1.DescendingScan
import AndyEnv.Lib.LastWrite
import AndyEnv.Wal.Acknowledged
import AndyEnv.Wal.DeleteSeries
import AndyEnv.Lib.Buckets
import AndyEnv.Meta.Agreement
import AndyEnv.Meta.Authenticate
import AndyEnv.Meta.Placement
import AndyEnv.Meta.References
import AndyEnv.Meta.ShardGroups
import AndyEnv.Meta.Dangling
import AndyEnv.Cluster.MapShards
import AndyEnv.Cluster.WriteToShard
import AndyEnv.Hh.Acknowledged
import AndyEnv.Hh.Crash
import AndyEnv.Lib.Maps
import AndyEnv.Lib.Wrap
import AndyEnv.Models.Lines
import AndyEnv.Models.SeriesKey
import AndyEnv.Snapshot.Manifest
import AndyEnv.Snapshot.MultiReader
import AndyEnv.Tsdb.AggregateIntervals
import AndyEnv.Tsdb.FieldCodec
import AndyEnv.Tsdb.IntervalLimits
import AndyEnv.Tsm1.WriteRouting
import AndyEnv.Tsm1.FilesAndLock
import AndyEnv.Tsm1.KeyToID
import AndyEnv.Tsm1.TsmIndex
import AndyEnv.Influxql.TagSets
import AndyEnv.Influxql.TimeRange
import AndyEnv.Models.Precision
import AndyEnv.Tsdb.SeriesIDs
import AndyEnv.Kingshard.FilterSpace
import AndyEnv.Tsdb.TagsCursor
import AndyEnv.Influxql.Duration
import AndyEnv.Tsdb.SortedRange
import AndyEnv.Bz1.Recovery
import AndyEnv.Wal.EmptyFlush
import AndyEnv.Tsm1.Wal.CacheOrder
