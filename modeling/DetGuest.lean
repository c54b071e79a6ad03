import DetGuest.Lib.Exec
import DetGuest.Lib.Bytes
import DetGuest.Lib.Circular
import DetGuest.Lib.Cursor
import DetGuest.Lib.Hoare
import DetGuest.Lib.Machine
import DetGuest.Lib.Precedence
import DetGuest.Lib.Relates
import DetGuest.Lib.Removal
import DetGuest.Lib.Runs
import DetGuest.Lib.Slice
import DetGuest.Lib.Seqlock
import DetGuest.Lib.Text
import DetGuest.Lib.Utf8
import DetGuest.Lib.Words
import DetGuest.Wire.Record
import DetGuest.Wire.Events
import DetGuest.Wire.Codec
import DetGuest.Wire.Header
import DetGuest.Wire.Ring
import DetGuest.Wire.Queue
import DetGuest.Wire.Arbitrary
import DetGuest.Wire.Manifest
import DetGuest.Wire.Regionipc
import DetGuest.Wire.Framing
import DetGuest.Wire.Messages
import DetGuest.Wire.Ports
import DetGuest.Host.Channel
import DetGuest.Host.Commands
import DetGuest.Host.Drain
import DetGuest.Host.Push
import DetGuest.Host.Walk
import DetGuest.Host.Rings
import DetGuest.Host.Faults
import DetGuest.Host.Hostile
import DetGuest.Host.Inject
import DetGuest.Host.Manifest
import DetGuest.Host.Plans
import DetGuest.Host.Replay
import DetGuest.Host.Step
import DetGuest.Host.Unpublished
import DetGuest.Agent.Control
import DetGuest.Agent.Drive
import DetGuest.Agent.Tiny
import DetGuest.Agent.Boot
import DetGuest.Agent.Channel
import DetGuest.Agent.Process
import DetGuest.Agent.Supervise
import DetGuest.Agent.Regions
import DetGuest.Agent.Book
import DetGuest.Agent.Ledger
import DetGuest.Agent.Ready
import DetGuest.Agent.Gate
import DetGuest.Agent.Autostart
import DetGuest.Agent.Brackets
import DetGuest.Agent.Emit
import DetGuest.Agent.Integers
import DetGuest.Agent.Lines
import DetGuest.Agent.Pvblk
import DetGuest.Agent.Syntax
import DetGuest.Agent.Tables
import DetGuest.Agent.RoundTrip
import DetGuest.Agent.Runtime
import DetGuest.Agent.Service
import DetGuest.Agent.Translate
import DetGuest.Agent.Varint
import DetGuest.Agent.Verify
import DetGuest.Sdk.Channel
import DetGuest.Sdk.Emit
import DetGuest.Sdk.Intern
import DetGuest.Sdk.State
import DetGuest.Sdk.Calls
import DetGuest.Sdk.Clipping
import DetGuest.Sdk.History
import DetGuest.Sdk.Map
import DetGuest.Sdk.Mirror
import DetGuest.Sdk.Quiesce
import DetGuest.Sdk.Sites
import DetGuest.Sdk.Suppression
import DetGuest.Protocol.Supervision
import DetGuest.Protocol.Acks
import DetGuest.Protocol.Delivery
import DetGuest.Protocol.Fifo
import DetGuest.Protocol.World
import DetGuest.Protocol.Consumers
import DetGuest.Protocol.Control
import DetGuest.Protocol.Decisions
import DetGuest.Protocol.Progress
import DetGuest.Protocol.Workload
import DetGuest.Protocol.Exits
import DetGuest.Protocol.Drops
import DetGuest.Protocol.Evidence
import DetGuest.Protocol.Headers
import DetGuest.Protocol.Naming
import DetGuest.Protocol.Points
import DetGuest.Protocol.Reports
import DetGuest.Protocol.Names
import DetGuest.Protocol.Injects
import DetGuest.Protocol.Ready
import DetGuest.Protocol.Regions
import DetGuest.Protocol.Registry
import DetGuest.Protocol.Service
import DetGuest.Protocol.Server
import DetGuest.Protocol.Life
import DetGuest.Protocol.Lifecycle
import DetGuest.Protocol.Living
import DetGuest.Protocol.Resolve
import DetGuest.Protocol.Published
import DetGuest.Protocol.Quiesce
import DetGuest.Protocol.Replay
import DetGuest.Protocol.Restore
import DetGuest.Protocol.Snapshot
import DetGuest.Protocol.Spsc
import DetGuest.Protocol.Turns
import DetGuest.Protocol.Sweep
