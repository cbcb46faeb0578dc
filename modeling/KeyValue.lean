import KeyValue.ByteMap
import KeyValue.Text.Lossy
import KeyValue.Reply.Wire
import KeyValue.Reply.Display
import KeyValue.Reply.Reader
import KeyValue.Glob
import KeyValue.Request
import KeyValue.Clock
import KeyValue.Keyspace
import KeyValue.Store
import KeyValue.Store.Hashes
import KeyValue.Store.Keys
import KeyValue.Store.Lists
import KeyValue.Store.Strings
import KeyValue.Command
import KeyValue.Command.Execute
import KeyValue.Snapshot.Decode
import KeyValue.Path
import KeyValue.FileSystem
import KeyValue.Snapshot.File
import KeyValue.Autosave
import KeyValue.Connection
import KeyValue.Sweeper
import KeyValue.Config
import KeyValue.Config.Arguments
import KeyValue.Server
import KeyValue.Main
import KeyValue.Proofs.ByteMap
import KeyValue.Proofs.Keyspace.Cell
import KeyValue.Proofs.Store.Cells
import KeyValue.Proofs.Command.Effect
import KeyValue.Proofs.Keyspace.WellFormed
import KeyValue.Proofs.Store.WellFormed
import KeyValue.Proofs.Snapshot.Records
import KeyValue.Proofs.Store.Reachable
import KeyValue.Proofs.Bytes
import KeyValue.Proofs.Snapshot.Escape
import KeyValue.Proofs.Snapshot.Line
import KeyValue.Proofs.Snapshot.RoundTrip
import KeyValue.Proofs.Command.Reads
import KeyValue.Proofs.Store.Housekeeping
import KeyValue.Proofs.FileSystem.Directories
import KeyValue.Proofs.Snapshot.File
import KeyValue.Proofs.Server.Restart
import KeyValue.Proofs.Keyspace.Restrict
import KeyValue.Proofs.Store.Operation
import KeyValue.Proofs.Command.Operation
import KeyValue.Proofs.Command.Failure
import KeyValue.Proofs.Store.Isolation
import KeyValue.Proofs.Decimal
import KeyValue.Proofs.Text.Encoding
import KeyValue.Proofs.Reply.Line
import KeyValue.Proofs.Reply.RoundTrip
import KeyValue.Proofs.Command.Replies
import KeyValue.Proofs.Command.Contents
import KeyValue.Proofs.Request.RoundTrip
import KeyValue.Proofs.Server.Agreement
import KeyValue.Proofs.Reply.Nesting
import KeyValue.Proofs.Reply.NestingCap
import KeyValue.Proofs.Reply.LineLimit
import KeyValue.Proofs.Request.Truncation
import KeyValue.Proofs.Request.Runs
import KeyValue.Proofs.Snapshot.Canonical
import KeyValue.Proofs.Store.Queue
import KeyValue.Proofs.Command.Arity
import KeyValue.Proofs.Snapshot.Crash
import KeyValue.Proofs.Connection.Visits
import KeyValue.Proofs.Glob.Matching
import KeyValue.Proofs.Snapshot.LastRecord
import KeyValue.Proofs.Store.Nonempty
import KeyValue.Proofs.Store.Deadlines
import KeyValue.Proofs.Connection.Framing
import KeyValue.Proofs.Reply.UniqueDecoding
import KeyValue.Proofs.Store.LiveList
import KeyValue.Proofs.Store.Removal
import KeyValue.Proofs.Store.Rename
import KeyValue.Proofs.Store.Positions
import KeyValue.Proofs.Store.PushPop
import KeyValue.Proofs.Store.Listing
import KeyValue.Proofs.Store.FieldWrites
import KeyValue.Proofs.Store.Evictions
import KeyValue.Proofs.Command.Recognition
import KeyValue.Proofs.Snapshot.Injectivity
import KeyValue.Proofs.Snapshot.LoadCounts
import KeyValue.Proofs.Sweeper.Interval
import KeyValue.Proofs.Autosave.Ticks
import KeyValue.Proofs.Store.FieldReads
import KeyValue.Proofs.Snapshot.Reading
import KeyValue.Proofs.Request.Bounds
