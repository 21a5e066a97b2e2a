import Khive.Blob.Entries
import Khive.Blob.Live
import Khive.Blob.PrefixIndex
import Khive.Blob.Tree
import Khive.Bm25.Exhaustive
import Khive.Capability.Canonical
import Khive.Capability.Delegation
import Khive.Capability.Liveness
import Khive.Changeset.Invert
import Khive.Changeset.Landing
import Khive.Changeset.Op
import Khive.Changeset.Replay
import Khive.Changeset.Restoration
import Khive.Changeset.Undo
import Khive.Charter.Generations
import Khive.Charter.Indentation
import Khive.Charter.Lines
import Khive.Charter.Performs
import Khive.Charter.Publication
import Khive.Charter.PublishCharter
import Khive.Foundation.Beam
import Khive.Foundation.Binary64
import Khive.Foundation.BinaryCodec
import Khive.Foundation.Binding
import Khive.Foundation.Bisection
import Khive.Foundation.ByteOrder
import Khive.Foundation.Calendar
import Khive.Foundation.Checks
import Khive.Foundation.CompactJson
import Khive.Foundation.Cycles
import Khive.Foundation.Descent
import Khive.Foundation.Distance
import Khive.Foundation.Json
import Khive.Foundation.Keyed
import Khive.Foundation.PrefixRange
import Khive.Foundation.Radix
import Khive.Foundation.Runs
import Khive.Foundation.Select
import Khive.Foundation.SimplePath
import Khive.Foundation.StableSort
import Khive.Foundation.ThreeWay
import Khive.Foundation.Utf8
import Khive.Foundation.Worklist
import Khive.Graph.Breadth
import Khive.Graph.Diff
import Khive.Graph.Offline
import Khive.Graph.Pages
import Khive.Graph.Shortest
import Khive.Graph.Traversal
import Khive.Gtd.Dependency
import Khive.Gtd.DependencyLinks
import Khive.Hnsw.AliasSafety
import Khive.Hnsw.Levels
import Khive.Merge.Archive
import Khive.Merge.Lca
import Khive.Merge.Merge
import Khive.Merge.Payload
import Khive.Merge.Soundness
import Khive.Merge.Unit
import Khive.Notes.InstantKey
import Khive.Notes.KeyRange
import Khive.Query.Mailbox
import Khive.Query.Pages
import Khive.Query.Parameters
import Khive.Query.Sparql
import Khive.Query.SparqlCollect
import Khive.Query.SparqlLower
import Khive.Query.Where
import Khive.Request.Batch
import Khive.Request.Nesting
import Khive.Request.PrevRef
import Khive.Request.Progress
import Khive.Request.Quoted
import Khive.Request.Units
import Khive.SecretGate.Bridge
import Khive.SecretGate.Masking
import Khive.SecretGate.Redaction
import Khive.SecretGate.Spans
import Khive.Streams.Reader
import Khive.Text.Identifier
import Khive.Time.Anchor
import Khive.Time.Instant
import Khive.Time.Repeat
import Khive.Time.Series
import Khive.Types.Record
import Khive.Types.Value
import Khive.Vamana.Frontier
import Khive.Vamana.Greedy
import Khive.Wire.Connection
import Khive.Wire.Frame
import Khive.Wire.Symmetry
