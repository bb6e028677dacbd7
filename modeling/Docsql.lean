import Docsql.Lib.Binary64
import Docsql.Lib.Bytes
import Docsql.Lib.StreamReader
import Docsql.Lib.StateExcept
import Docsql.Lib.Run
import Docsql.Lib.Lookup
import Docsql.Lib.Worklist
import Docsql.Lib.Triangle
import Docsql.Lib.BPlusTree
import Docsql.Lib.BPlusTreeOrder
import Docsql.Lib.BPlusTreeInsert
import Docsql.Lib.BPlusTreeLookup
import Docsql.Lib.BPlusTreeGrow
import Docsql.Value
import Docsql.NumberOrder
import Docsql.ValueOrder
import Docsql.Encode
import Docsql.EncodeRoundTrip
import Docsql.PageStore
import Docsql.BTree.Node
import Docsql.BTree.NodePage
import Docsql.BTree.Store
import Docsql.BTree.Layout
import Docsql.BTree.Represent
import Docsql.BTree.InsertRefine
import Docsql.BTree.LookupRefine
import Docsql.BTree.EagerLookup
import Docsql.BTree.LeafMatch
import Docsql.BTree.Session
import Docsql.BTree.Collect
import Docsql.Checkpoint.Interleaving
import Docsql.BTree.Multimap
import Docsql.BTree.UniqueMap
import Docsql.Wal.Frame
import Docsql.Wal.Log
import Docsql.Wal.TornTail
import Docsql.Heap.Page
import Docsql.Heap.PageImage
import Docsql.Heap.Store
import Docsql.Heap.Chain
import Docsql.Heap.Represent
import Docsql.Heap.Insert
import Docsql.Heap.Rewrite
import Docsql.Heap.Remove
import Docsql.Heap.Replace
import Docsql.Heap.Documents
import Docsql.Trigger.Statement
import Docsql.Trigger.Guard
import Docsql.Trigger.Reentry
import Docsql.Index.Meta
import Docsql.Index.Ddl
import Docsql.Index.Dml
import Docsql.Index.Content
import Docsql.Index.DmlContent
import Docsql.Index.UpdateContent
import Docsql.Index.Replace
import Docsql.Cluster.Repair
import Docsql.Cluster.TxBuffer
import Docsql.Cluster.TxMirror
import Docsql.Cluster.Quorum
import Docsql.Cluster.Epoch
import Docsql.Cluster.Catchup
import Docsql.Cluster.Join
import Docsql.Cluster.Intake
import Docsql.PubSub.Glob
import Docsql.PubSub.Store
import Docsql.PubSub.Handoff
import Docsql.Json.Text
import Docsql.Json.RoundTrip
import Docsql.Json.Nesting
import Docsql.Sql.Syntax
import Docsql.Sql.Exec
import Docsql.Sql.Reads
import Docsql.Sql.Settled
import Docsql.Sql.Coverage
import Docsql.Sql.Authorize
import Docsql.Backup.Chain
import Docsql.Backup.Restore
import Docsql.Backup.Retained
import Docsql.Backup.Adoption
import Docsql.Lib.KeyedBag
import Docsql.RowIdentity
import Docsql.Sql.Grants
import Docsql.Sql.Lexical
import Docsql.Sql.Scoping
import Docsql.Lib.Steady
import Docsql.Sql.Write
import Docsql.Sql.WriteSettled
import Docsql.Sql.AuthorizeWrite
import Docsql.Sql.Names
import Docsql.Lib.RefGraph
import Docsql.Catalog.Ddl
import Docsql.Catalog.Refs
import Docsql.Catalog.Drop
import Docsql.Catalog.Create
import Docsql.Catalog.Alter
import Docsql.Lib.Window
import Docsql.BTree.Range
import Docsql.BTree.RangeScan
import Docsql.BTree.Space
import Docsql.Transport.Crypto
import Docsql.Transport.Delivery
import Docsql.Auth.Accounts
import Docsql.Auth.Session
import Docsql.Auth.Derivation
import Docsql.Isolation.Isolated
import Docsql.Dml.Atomic
import Docsql.Dml.Fires
import Docsql.EncodeExtract
import Docsql.Cluster.Journal
import Docsql.Heap.Corrupt
import Docsql.Heap.Disjoint
import Docsql.Timestamp.RoundTrip
import Docsql.Dml.Cascade
import Docsql.Index.UniqueSources
import Docsql.Stmt.GoLines
import Docsql.Stmt.ClockCalls
import Docsql.Scalar.Total
import Docsql.Expr.Constant
import Docsql.Expr.Check
import Docsql.Expr.RoundTrip
import Docsql.Autoinc.Session
import Docsql.PubSub.GlobLanguage
import Docsql.Guid
import Docsql.PubSub.Registry
import Docsql.Cluster.Pull
import Docsql.Window.Frames
import Docsql.Window.ComputeAggregates
import Docsql.Lib.Wildcard
import Docsql.Tsql.CalendarSteps
import Docsql.Tsql.Like
import Docsql.Tsql.LikeLanguage
import Docsql.Tsql.DateDomain
import Docsql.Tsql.DateSteps
import Docsql.Sql.Recursive
import Docsql.Dump.Rows
