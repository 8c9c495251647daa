import TradingPipeline.Lib.Runs
import TradingPipeline.Lib.RingWindow
import TradingPipeline.Lib.MachineInt
import TradingPipeline.Order.Ring
import TradingPipeline.Order.RingInvariant
import TradingPipeline.Order.RingFifo
import TradingPipeline.Book.OrderBook
import TradingPipeline.Book.LiveOrderTable
import TradingPipeline.Book.Adapter
import TradingPipeline.Engine.FillSim
import TradingPipeline.Engine.MarketMaker
import TradingPipeline.Engine.Dispatcher
import TradingPipeline.Engine.Inventory
import TradingPipeline.Engine.KillSwitch
import TradingPipeline.Book.ListBook
import TradingPipeline.Lib.LinearProbing
import TradingPipeline.Book.TableInvariant
import TradingPipeline.Book.Reference
import TradingPipeline.Book.Refinement
import TradingPipeline.Engine.BookReconstruction
import TradingPipeline.Lib.Bytes
import TradingPipeline.Lib.Tiling
import TradingPipeline.Mold.Header
import TradingPipeline.Receiver.Extract
import TradingPipeline.Receiver.Handle
import TradingPipeline.Receiver.Loop
import TradingPipeline.Receiver.Paths
import TradingPipeline.Receiver.Moves
import TradingPipeline.Receiver.Actions
import TradingPipeline.Receiver.Window
import TradingPipeline.Receiver.Pool
import TradingPipeline.Receiver.Invariant
import TradingPipeline.Receiver.Reachable
import TradingPipeline.Receiver.Progress
import TradingPipeline.Receiver.Sequencing
import TradingPipeline.Receiver.ZeroCopy
import TradingPipeline.Receiver.Recovery
import TradingPipeline.Receiver.InOrder
import TradingPipeline.Server.Rewinder
import TradingPipeline.Receiver.Sessions
import TradingPipeline.Engine.Risk
import TradingPipeline.Engine.Messages
import TradingPipeline.Engine.RateCap
import TradingPipeline.Engine.Gateway
import TradingPipeline.Engine.Phantom
import TradingPipeline.Engine.KillPath
import TradingPipeline.Engine.Exchange
import TradingPipeline.Engine.Crossing
import TradingPipeline.Engine.Pnl
import TradingPipeline.Lib.FixedFrames
import TradingPipeline.Order.Wire
import TradingPipeline.Order.Session
import TradingPipeline.Order.SessionSafety
import TradingPipeline.Lib.LengthPrefix
import TradingPipeline.Mold.Packets
import TradingPipeline.Server.Feed
import TradingPipeline.Server.FeedDelivery
import TradingPipeline.Order.Acks
import TradingPipeline.Order.AckFraming
import TradingPipeline.Order.AckAgreement
import TradingPipeline.Order.Reconnects
import TradingPipeline.Observer.Streams
import TradingPipeline.Receiver.XdpFilter
import TradingPipeline.Engine.Submission
import TradingPipeline.Engine.PriceRange
import TradingPipeline.Server.CacheRace
import TradingPipeline.Receiver.EndOfSession
import TradingPipeline.Engine.QueuePosition
import TradingPipeline.Order.SequenceDiscipline
import TradingPipeline.Server.ReplayBounds
import TradingPipeline.Receiver.Copies
import TradingPipeline.Book.TableMap
import TradingPipeline.Book.MatchingBook
import TradingPipeline.Engine.StaleHandles
import TradingPipeline.Lib.Memory
import TradingPipeline.Itch.Handlers
import TradingPipeline.Itch.SimdDecode
import TradingPipeline.Engine.Consume
import TradingPipeline.Afxdp.Checksum
import TradingPipeline.Afxdp.Frame
import TradingPipeline.Afxdp.ValidFrame
import TradingPipeline.Afxdp.Send
import TradingPipeline.Afxdp.Pool
import TradingPipeline.Engine.Refills
import TradingPipeline.Order.Checksums
import TradingPipeline.Engine.TableRoom
import TradingPipeline.Lib.BoundedFrames
import TradingPipeline.Observer.Segmentation
import TradingPipeline.Lib.CString
import TradingPipeline.Lib.Lines
import TradingPipeline.Telemetry.ControlLoop
import TradingPipeline.ControlService.PendingOrders
import TradingPipeline.Order.Handover
import TradingPipeline.Order.Path
import TradingPipeline.ControlService.TelemetrySocket
import TradingPipeline.Engine.Deadman
import TradingPipeline.Engine.ShardBooks
import TradingPipeline.Lib.OrderStatistics
import TradingPipeline.MarketData.ClosedLoop
import TradingPipeline.MarketData.LiveBooks
import TradingPipeline.Order.AfxdpEgress
import TradingPipeline.Order.Latency
import TradingPipeline.ControlService.DashboardState
import TradingPipeline.ControlService.Snapshots
import TradingPipeline.Engine.FairValue
