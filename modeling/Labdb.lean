import Labdb.Storage.CheckpointCut
import Labdb.Storage.LogCut
import Labdb.Storage.Holdings
import Labdb.Storage.WriteAhead
import Labdb.Storage.FailedCommit
import Labdb.Pool.Transparent
import Labdb.Pool.Residency
import Labdb.Query.Sum
import Labdb.Query.FromRows
import Labdb.Query.JoinAgree
import Labdb.Query.MinMaxEnds
import Labdb.Query.SortBatchRows
import Labdb.Sql.RoundTrip
import Labdb.Sql.Numerals
import Labdb.Shell.Pieces
import Labdb.Heap.SlotRuns
import Labdb.Record.Decode
import Labdb.Catalog.CursorRuns
import Labdb.Catalog.DirectoryRuns
import Labdb.BTree.SortedMap
import Labdb.BTree.Duplicates
import Labdb.BTree.LeafChain
import Labdb.BTree.Cursors
import Labdb.Exec.Chain
import Labdb.BTree.Sparse
import Labdb.Query.SelectAnswers
import Labdb.Engine.Backfill
import Labdb.Engine.SessionRuns
import Labdb.Engine.Selects
import Labdb.Engine.Estimates
