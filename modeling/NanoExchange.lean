import NanoExchange.Lib.OrdMap
import NanoExchange.Lib.Linked
import NanoExchange.Lib.NestedIndex
import NanoExchange.Lib.Priority
import NanoExchange.Lib.Lists
import NanoExchange.Lib.Outcome
import NanoExchange.Types
import NanoExchange.Engine.Messages
import NanoExchange.Engine.ObjectPool
import NanoExchange.Engine.OrderBook
import NanoExchange.Engine.MapBook
import NanoExchange.Engine.VectorBook
import NanoExchange.Engine.Ladder
import NanoExchange.Engine.Reports
import NanoExchange.Engine.Sweep
import NanoExchange.Engine.Representation
import NanoExchange.Engine.MatchRefinement
import NanoExchange.Engine.LadderInvariant
import NanoExchange.Engine.BookRefinement
import NanoExchange.Engine.MapLevelsLaws
import NanoExchange.Engine.VectorLevelsLaws
import NanoExchange.Engine.Book
import NanoExchange.Engine.BookView
import NanoExchange.Engine.RequestRefinement
import NanoExchange.Engine.Runs
import NanoExchange.Engine.Equivalence
import NanoExchange.Engine.MapInvariant
import NanoExchange.Engine.MatchingEngine
import NanoExchange.Engine.Trades
import NanoExchange.Engine.Fills
import NanoExchange.Engine.Streams
import NanoExchange.Engine.Ledger
import NanoExchange.Network.ShadowBook
import NanoExchange.Network.ShadowRefinement
import NanoExchange.Lib.Bytes
import NanoExchange.Gateway.TokenManager
import NanoExchange.Gateway.Ouch
import NanoExchange.Gateway.Fifo
import NanoExchange.Gateway.OrderServer
import NanoExchange.Gateway.Routing
import NanoExchange.Lib.Window
import NanoExchange.Network.Itch
import NanoExchange.Network.Feed
import NanoExchange.Network.Replay
import NanoExchange.Lib.PackedStruct
import NanoExchange.Lib.Framing
import NanoExchange.Network.ItchDecode
import NanoExchange.Network.Subscriber
import NanoExchange.Network.WireValues
import NanoExchange.Network.Snapshot
import NanoExchange.Network.Freshness
import NanoExchange.Gateway.FifoBuffer
import NanoExchange.Gateway.Segments
import NanoExchange.Gateway.Sent
import NanoExchange.Gateway.Registry
import NanoExchange.Engine.Custody
import NanoExchange.Gateway.OuchEncode
import NanoExchange.Gateway.Replies
import NanoExchange.Gateway.Desk
import NanoExchange.Gateway.Tokens
import NanoExchange.Gateway.Rounds
import NanoExchange.Gateway.ClientOrder
import NanoExchange.Gateway.Exchange
import NanoExchange.Gateway.Isolation
import NanoExchange.Engine.LevelReference
import NanoExchange.Engine.Cancels
import NanoExchange.Lib.Allocation
import NanoExchange.Engine.PriceTime
import NanoExchange.Engine.Prices
import NanoExchange.Network.ShadowDrift
import NanoExchange.Lib.Oblivious
import NanoExchange.Engine.Deeds
import NanoExchange.Engine.Independence
import NanoExchange.Lib.Reach
import NanoExchange.Threads.FrontEnd
import NanoExchange.Threads.BackEnd
import NanoExchange.Threads.Pipeline
import NanoExchange.Threads.EngineThread
import NanoExchange.Threads.Invariant
import NanoExchange.Threads.Shutdown
import NanoExchange.Threads.Progress
import NanoExchange.Engine.LevelList
import NanoExchange.Engine.Replacement
import NanoExchange.Gateway.LatestWins
import NanoExchange.Engine.Origins
import NanoExchange.Engine.EchoedQuantity
import NanoExchange.Lib.Bitmap
import NanoExchange.Variants.BitmapLevels
import NanoExchange.Variants.BitmapLevelsLaws
import NanoExchange.Variants.VariantBook
import NanoExchange.Variants.Agreement
import NanoExchange.Engine.PoolUse
import NanoExchange.Engine.Capacity
import NanoExchange.Engine.Precedence
import NanoExchange.Lib.Replica
import NanoExchange.Lib.SelfDelimiting
import NanoExchange.Lib.Transport
import NanoExchange.Network.RecoveryService
import NanoExchange.Network.Recovery
import NanoExchange.Network.Session
import NanoExchange.Network.EndToEnd
import NanoExchange.Gateway.Delivery
import NanoExchange.Threads.Schedules
import NanoExchange.Gateway.Departed
import NanoExchange.Threads.Broadcast
import NanoExchange.Threads.Program
import NanoExchange.Lib.Directory
import NanoExchange.Gateway.ClientView
import NanoExchange.Gateway.ReplyMessages
import NanoExchange.Gateway.Tracking
import NanoExchange.Network.Overlay
import NanoExchange.Network.Listing
import NanoExchange.Network.FeedContents
