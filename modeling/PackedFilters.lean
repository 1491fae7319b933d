import PackedFilters.Lib.Gf2System
import PackedFilters.Lib.Peeling
import PackedFilters.Ribbon.Policy
import PackedFilters.Xor.Policy
import PackedFilters.LevelDbSafety
import PackedFilters.RocksDb.Policy
import PackedFilters.RocksDb.Reuse
import PackedFilters.RocksDb.Limits
import PackedFilters.RocksDb.Reader
import PackedFilters.RocksDb.Space
import PackedFilters.Codec.RoundTrip
import PackedFilters.XorExactness
import PackedFilters.Mixing
import PackedFilters.Engines
import PackedFilters.Config.FilterPolicy
import PackedFilters.Bench.Throughput
import PackedFilters.LevelDb.VersionGet
import PackedFilters.LevelDb.TwoLevelIterator
import PackedFilters.LevelDb.DbIter
import PackedFilters.LevelDb.VersionIterator
import PackedFilters.LevelDb.DbImpl
