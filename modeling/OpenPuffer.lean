import OpenPuffer.Cluster.IndexCommit
import OpenPuffer.Conditional.Linearizable
import OpenPuffer.Vector.Atomicity
import OpenPuffer.Vector.Concurrent
import OpenPuffer.View.Corrupt
import OpenPuffer.Deletion
import OpenPuffer.Buffer.Metric
import OpenPuffer.Cache
import OpenPuffer.Buffer.Drop
import OpenPuffer.Columns.Legacy
import OpenPuffer.Buffer.RateLimit
import OpenPuffer.Vector.Normalize
import OpenPuffer.Wal.Encoding
import OpenPuffer.Vector.Cap
import OpenPuffer.Buffer.Isolation
import OpenPuffer.View.Loaders
import OpenPuffer.Search.Exact
import OpenPuffer.Vector.ProbeBound
import OpenPuffer.Vector.ObjectCount
import OpenPuffer.Vector.Format
import OpenPuffer.Export
import OpenPuffer.Recall
import OpenPuffer.Index.FilterHistory
import OpenPuffer.Search.RefNew
import OpenPuffer.Indexer.Progress
import OpenPuffer.Cache.Paths
import OpenPuffer.View.Cache
import OpenPuffer.Index.AttributeOrder
