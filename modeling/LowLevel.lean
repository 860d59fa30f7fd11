import LowLevel.OrderBook.Engine
import LowLevel.OrderBook.Representation
import LowLevel.Foundations.Selection
import LowLevel.OrderBook.FlowGenerator
import LowLevel.OrderBook.Invariant
import LowLevel.OrderBook.Matching
import LowLevel.OrderBook.Refinement
import LowLevel.OrderBook.Runs
import LowLevel.OrderBook.MatchLaws
import LowLevel.OrderBook.Keys
import LowLevel.OrderBook.Conservation
import LowLevel.OrderBook.Trades
import LowLevel.OrderBook.Mirror
import LowLevel.OrderBook.Subjects
import LowLevel.Foundations.Search
import LowLevel.Books.Orders
import LowLevel.Books.Simulation
import LowLevel.Books.Ladder
import LowLevel.Books.Refinement
import LowLevel.Books.ListBook
import LowLevel.Books.SortedVector
import LowLevel.Books.Agreement
import LowLevel.Books.TickOffset
import LowLevel.Books.TickRuns
import LowLevel.Books.Workload
import LowLevel.Foundations.Turns
import LowLevel.Queues.Cells
import LowLevel.Queues.Protocol
import LowLevel.Queues.Spsc
import LowLevel.Queues.Mpsc
import LowLevel.Foundations.Ledger
import LowLevel.Queues.Mpmc
import LowLevel.Queues.MpmcCalls
import LowLevel.Queues.MpmcTurns
import LowLevel.Queues.MpmcRuns
import LowLevel.Queues.Fifo
import LowLevel.Queues.SpscRing
import LowLevel.Queues.SpscLinked
import LowLevel.Queues.SpscRefinement
import LowLevel.Queues.Capacity
import LowLevel.Foundations.Linearization
import LowLevel.Queues.LfStack
import LowLevel.Queues.LfStackRuns
import LowLevel.ThreadPool.Pool
import LowLevel.ThreadPool.Wakeups
import LowLevel.ThreadPool.Jobs
import LowLevel.Foundations.Bytes
import LowLevel.Foundations.Reassembly
import LowLevel.Wire.Fields
import LowLevel.Wire.Messages
import LowLevel.Wire.Codec
import LowLevel.Wire.Stream
import LowLevel.Network.Uring
import LowLevel.Network.UringStream
import LowLevel.Network.UringRequests
import LowLevel.Network.Epoll
import LowLevel.Network.Exchange
import LowLevel.Network.Ownership
import LowLevel.Network.Framing
import LowLevel.Network.FramingSafety
import LowLevel.Network.MultiRx
import LowLevel.Network.Multicast
import LowLevel.Foundations.InFlight
import LowLevel.Network.EchoServer
import LowLevel.Foundations.Memory
import LowLevel.Foundations.Circular
import LowLevel.Allocators.Blocks
import LowLevel.Allocators.BlockList
import LowLevel.Allocators.Client
import LowLevel.Allocators.Live
import LowLevel.Allocators.Simulation
import LowLevel.Allocators.Explicit
import LowLevel.Allocators.FreeRing
import LowLevel.Allocators.ExplicitHeap
import LowLevel.Allocators.ExplicitMalloc
import LowLevel.Allocators.ExplicitFree
import LowLevel.Allocators.ExplicitRuns
import LowLevel.Allocators.Placement
import LowLevel.Allocators.FirstFit
import LowLevel.Allocators.Bump
import LowLevel.Allocators.Coalescing
import LowLevel.Allocators.CoalescingHeap
import LowLevel.Allocators.Stale
import LowLevel.Allocators.DoubleFree
import LowLevel.Allocators.Alignment
import LowLevel.Allocators.ZeroRequests
import LowLevel.Allocators.Implicit
import LowLevel.Allocators.Improved
import LowLevel.Allocators.Slots
import LowLevel.Allocators.ImplicitSlots
import LowLevel.Allocators.Overflow
import LowLevel.Allocators.ImprovedSlots
import LowLevel.Allocators.SoaAgreement
import LowLevel.Allocators.SoaFree
import LowLevel.Allocators.Instances
import LowLevel.Allocators.Isolation
import LowLevel.Allocators.Lifecycle
import LowLevel.OrderBook.PoolBytes
import LowLevel.OrderBook.PoolAlignment
import LowLevel.Queues.MpmcProgress
import LowLevel.Queues.LfStackProgress
import LowLevel.Queues.Locked
import LowLevel.Trading.Client
import LowLevel.Allocators.Fragmentation
import LowLevel.ThreadPool.Workers
import LowLevel.ThreadPool.Completion
import LowLevel.Network.EchoClients
