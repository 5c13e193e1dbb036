import MarketMaker.Bench.Attribution
import MarketMaker.Bench.Correlation
import MarketMaker.Bench.Dump
import MarketMaker.Bench.Pairing
import MarketMaker.Bench.Probe
import MarketMaker.Bench.Recorder
import MarketMaker.Bench.Rig
import MarketMaker.Bench.Standing
import MarketMaker.Client.Agreement
import MarketMaker.Client.Contiguity
import MarketMaker.Client.Decode
import MarketMaker.Client.Decoders
import MarketMaker.Client.Dispatch
import MarketMaker.Client.Encode
import MarketMaker.Client.FastPath
import MarketMaker.Client.Heard
import MarketMaker.Client.Listener
import MarketMaker.Client.Preflight
import MarketMaker.Client.Reassembly
import MarketMaker.Client.Reception
import MarketMaker.Client.RoundTrip
import MarketMaker.Client.Rules
import MarketMaker.Client.Scan
import MarketMaker.Client.Session
import MarketMaker.Client.Spans
import MarketMaker.Client.Tags
import MarketMaker.Client.Tokens
import MarketMaker.Codec.Basic
import MarketMaker.Codec.Encode
import MarketMaker.Codec.Glaze
import MarketMaker.Codec.Inbound
import MarketMaker.Codec.Nlohmann
import MarketMaker.Codec.Preflight
import MarketMaker.Codec.Recognizer
import MarketMaker.Codec.Round
import MarketMaker.Codec.Scan
import MarketMaker.Codec.Tokens
import MarketMaker.Duplex.Agreement
import MarketMaker.Duplex.Attention
import MarketMaker.Duplex.Basic
import MarketMaker.Duplex.Effects
import MarketMaker.Duplex.Invariant
import MarketMaker.Engine.Alloc
import MarketMaker.Engine.Basic
import MarketMaker.Engine.Feed
import MarketMaker.Engine.FillRule
import MarketMaker.Engine.Invariant
import MarketMaker.Engine.Isolation
import MarketMaker.Engine.Life
import MarketMaker.Engine.OrderStep
import MarketMaker.Engine.PostOnly
import MarketMaker.Engine.Reap
import MarketMaker.Engine.Restrict
import MarketMaker.Engine.Sweep
import MarketMaker.Feed.Loader
import MarketMaker.Feed.Script
import MarketMaker.Lib.Checks
import MarketMaker.Lib.Cursor
import MarketMaker.Lib.Fallible
import MarketMaker.Lib.Json.Decimal
import MarketMaker.Lib.Json.Document
import MarketMaker.Lib.Json.Elements
import MarketMaker.Lib.Json.Grammar
import MarketMaker.Lib.Json.Reader
import MarketMaker.Lib.Json.Value
import MarketMaker.Lib.Json.Writer
import MarketMaker.Lib.Lookup
import MarketMaker.Lib.Mealy
import MarketMaker.Lib.OrderedMap
import MarketMaker.Lib.Packed
import MarketMaker.Lib.Regex
import MarketMaker.Lib.Register
import MarketMaker.Lib.Renumber
import MarketMaker.Lib.Utf8
import MarketMaker.Lib.WebSocket
import MarketMaker.Link.Absorb
import MarketMaker.Link.ClosedLoop
import MarketMaker.Link.Details
import MarketMaker.Link.Follows
import MarketMaker.Link.Frames
import MarketMaker.Link.Loop
import MarketMaker.Link.Replies
import MarketMaker.Link.Simulation
import MarketMaker.Link.World
import MarketMaker.Native.Accounts
import MarketMaker.Native.Basic
import MarketMaker.Native.Ledger
import MarketMaker.Native.Orphans
import MarketMaker.Native.Quotes
import MarketMaker.Protocol
import MarketMaker.Ring.Attach
import MarketMaker.Ring.Basic
import MarketMaker.Ring.Drain
import MarketMaker.Ring.Invariant
import MarketMaker.Ring.Memory
import MarketMaker.Ring.Overwrite
import MarketMaker.Ring.Queue
import MarketMaker.Ring.Wire
import MarketMaker.Ring.Writer
import MarketMaker.Server.Admission
import MarketMaker.Server.Books
import MarketMaker.Server.Calm
import MarketMaker.Server.Closing
import MarketMaker.Server.Delivery
import MarketMaker.Server.EntryCap
import MarketMaker.Server.Frames
import MarketMaker.Server.Guarantees
import MarketMaker.Server.Inbound
import MarketMaker.Server.Invariant
import MarketMaker.Server.Ledger
import MarketMaker.Server.Line
import MarketMaker.Server.Outbox
import MarketMaker.Server.Progress
import MarketMaker.Server.Refine
import MarketMaker.Server.Roster
import MarketMaker.Server.Run
import MarketMaker.Server.Session
import MarketMaker.Server.Shutdown
import MarketMaker.Server.Snapshots
import MarketMaker.Server.Stream
import MarketMaker.Server.Ticks
import MarketMaker.Server.Turns
import MarketMaker.Server.Unread
import MarketMaker.Server.World
import MarketMaker.Strategy.Barrier
import MarketMaker.Strategy.Basic
import MarketMaker.Strategy.Environment
import MarketMaker.Strategy.Guards
import MarketMaker.Strategy.Issue
import MarketMaker.Strategy.Orderly
import MarketMaker.Strategy.Side
import MarketMaker.Strategy.Sweep
import MarketMaker.Strategy.Tidy
