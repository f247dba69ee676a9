import ToyExchange.Foundations.Mealy
import ToyExchange.Foundations.FlatMap
import ToyExchange.Foundations.Drain
import ToyExchange.Foundations.CheapestDrain
import ToyExchange.Foundations.BoundedFifo
import ToyExchange.Foundations.Fairness
import ToyExchange.Foundations.SignedWord
import ToyExchange.Foundations.Rounding
import ToyExchange.Foundations.DecimalText
import ToyExchange.Foundations.Separated
import ToyExchange.Foundations.Bytes
import ToyExchange.Foundations.StructFormat
import ToyExchange.Foundations.Framing
import ToyExchange.Foundations.Inventory
import ToyExchange.Core.Types
import ToyExchange.Core.Seqlock
import ToyExchange.Engine.MatchingEngine
import ToyExchange.Engine.MatchLoop
import ToyExchange.Engine.LiveOrders
import ToyExchange.Engine.WellFormed
import ToyExchange.Engine.OrderIndex
import ToyExchange.Engine.Ledger
import ToyExchange.Engine.Ownership
import ToyExchange.Engine.SplitOrders
import ToyExchange.Engine.NaiveExchange
import ToyExchange.Engine.BestExecution
import ToyExchange.Engine.MidPrice
import ToyExchange.Engine.Spread
import ToyExchange.Engine.Cancellation
import ToyExchange.Engine.PassiveAdds
import ToyExchange.Engine.Symmetry
import ToyExchange.Engine.User
import ToyExchange.Engine.Accounting
import ToyExchange.Engine.CostBasis
import ToyExchange.Engine.Doubles
import ToyExchange.Engine.Router
import ToyExchange.Engine.FeedLog
import ToyExchange.Engine.Isolation
import ToyExchange.Engine.Provenance
import ToyExchange.Engine.TradeVolumes
import ToyExchange.Tools.OrderBookListener
import ToyExchange.Tools.FeedMirror
import ToyExchange.Tools.LossyFeed
import ToyExchange.Workers.Settlement
import ToyExchange.Workers.Pipeline
import ToyExchange.Workers.InOrder
import ToyExchange.Workers.Shutdown
import ToyExchange.Workers.Progress
import ToyExchange.Workers.Turns
import ToyExchange.Workers.Replica
import ToyExchange.Workers.LockedThreads
import ToyExchange.Workers.SharedMidPrice
import ToyExchange.Workers.Rank
import ToyExchange.Workers.Termination
import ToyExchange.Workers.Fills
import ToyExchange.Workers.VolumeRange
import ToyExchange.Workers.MarkToMarket
import ToyExchange.Workers.Snapshot
import ToyExchange.Workers.DoubleBooks
import ToyExchange.Net.Wire
import ToyExchange.Net.Gateway
import ToyExchange.Net.Descriptors
import ToyExchange.Net.Sessions
import ToyExchange.Net.UnterminatedTickers
import ToyExchange.Tools.Wire
import ToyExchange.Tools.CodecAgreement
import ToyExchange.Tools.OrderGenerator
import ToyExchange.Tools.PrintedPrice
import ToyExchange.Tools.ListenerProgram
import ToyExchange.Tools.IgnoredCommands
import ToyExchange.Exchange.System
import ToyExchange.Exchange.EndToEnd
import ToyExchange.Exchange.ToolChain
import ToyExchange.Exchange.PrintedBooks
import ToyExchange.Exchange.SnapshotFile
