import Scrimmage.Theory.Loop
import Scrimmage.Theory.Sweep
import Scrimmage.Theory.SweepCompare
import Scrimmage.Theory.DirectMap
import Scrimmage.Theory.KeyedList
import Scrimmage.Theory.Mutex
import Scrimmage.Theory.Chain
import Scrimmage.Theory.Framing
import Scrimmage.Theory.Ring
import Scrimmage.Theory.Transition
import Scrimmage.Theory.Path
import Scrimmage.Theory.CriticalSection
import Scrimmage.Theory.Receiver
import Scrimmage.Theory.ReceiverThread
import Scrimmage.Theory.Ownership
import Scrimmage.Theory.ReleaseAcquire
import Scrimmage.Common.SpScRingBuffer
import Scrimmage.Common.SpScRingBufferConsumer
import Scrimmage.Common.SpScRingBufferOccupancy
import Scrimmage.Common.SpScRingBufferCalls
import Scrimmage.Common.SpScRingBufferOrders
import Scrimmage.Common.SpScRingBufferRaces
import Scrimmage.Common.SpScRingBufferRefinement
import Scrimmage.Common.ConsumeLoop
import Scrimmage.Common.MessageOrder
import Scrimmage.Networking.TcpFramer
import Scrimmage.Networking.FramerCalls
import Scrimmage.Networking.FramerLimits
import Scrimmage.Networking.TcpClient
import Scrimmage.Networking.Sockets
import Scrimmage.Networking.TcpServer
import Scrimmage.Networking.ServerConnections
import Scrimmage.Networking.ServerStop
import Scrimmage.Networking.Pipelines
import Scrimmage.Networking.ConnectionSessions
import Scrimmage.Networking.TcpHeartbeat
import Scrimmage.Networking.SocketLifetimes
import Scrimmage.Match.PriceLevels
import Scrimmage.Match.LevelQueues
import Scrimmage.Match.LevelTotals
import Scrimmage.Match.PriceScale
import Scrimmage.Match.Reconfiguration
import Scrimmage.Match.OrderMap
import Scrimmage.Match.PoolIndices
import Scrimmage.Matching.OrderBookPool
import Scrimmage.Matching.MatchingEnginePartition
import Scrimmage.Matching.PartitionOutputs
import Scrimmage.Matching.PartitionThreads
import Scrimmage.Matching.OrderSymbols
import Scrimmage.MarketData.OrderBookFeed
import Scrimmage.MarketData.Depth
import Scrimmage.MarketData.UpdateCallback
import Scrimmage.MarketData.SharedFeed
import Scrimmage.MarketData.SyntheticDataInjector
import Scrimmage.Market.Order
import Scrimmage.Market.MatchingEngine
import Scrimmage.Market.MatchTurn
import Scrimmage.Market.Representation
import Scrimmage.Market.Sweep
import Scrimmage.Market.Priority
import Scrimmage.Market.Isolation
import Scrimmage.Market.Ledger
import Scrimmage.Market.TimePriority
import Scrimmage.Market.Exchange
import Scrimmage.Market.Independence
import Scrimmage.Market.Exhaustion
import Scrimmage.Market.Mirror
import Scrimmage.Market.Trades
import Scrimmage.Market.Greedy
import Scrimmage.Market.Workload
import Scrimmage.Market.SplitOrders
import Scrimmage.Market.ThrowingCallback
import Scrimmage.Market.CaughtExceptions
import Scrimmage.Market.SymbolHash
