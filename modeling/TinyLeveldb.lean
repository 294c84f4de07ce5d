import TinyLeveldb.MemTable.Entry
import TinyLeveldb.Arena.Alignment
import TinyLeveldb.SkipList.Semantics
import TinyLeveldb.Crc32c.Extend
import TinyLeveldb.Hash.Mixing
import TinyLeveldb.Cache.HandleTable
import TinyLeveldb.Cache.MapSemantics
import TinyLeveldb.Cache.Eviction
import TinyLeveldb.Cache.Sharded
import TinyLeveldb.Filter.Exactness
import TinyLeveldb.Filter.Untrusted
import TinyLeveldb.Env.BackgroundWork
import TinyLeveldb.Env.WriteToFile
import TinyLeveldb.Env.Reporting
import TinyLeveldb.Env.FileReads
import TinyLeveldb.Block.Termination
import TinyLeveldb.Block.Calls
import TinyLeveldb.Block.Compression
import TinyLeveldb.Table.Bookkeeping
import TinyLeveldb.Table.RoundTrip
import TinyLeveldb.Table.Visibility
import TinyLeveldb.Table.Durability
import TinyLeveldb.Table.Failures
import TinyLeveldb.Table.Surroundings
import TinyLeveldb.Table.Trailer
