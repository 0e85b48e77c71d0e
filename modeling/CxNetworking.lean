import CxNetworking.Lib.Execution
import CxNetworking.Lib.History
import CxNetworking.Lib.Simulation
import CxNetworking.Lib.Ownership
import CxNetworking.Lib.Orbit
import CxNetworking.Lib.BigEndian
import CxNetworking.Lib.Registry
import CxNetworking.Lib.Dotted
import CxNetworking.Dns.Reader
import CxNetworking.Dns.NameGrammar
import CxNetworking.Dns.Writer
import CxNetworking.Dns.Message
import CxNetworking.Dns.ParseExact
import CxNetworking.Dns.ReaderCalls
import CxNetworking.Dns.RoundTrip
import CxNetworking.Dns.Rejection
import CxNetworking.Dns.Fields
import CxNetworking.Dns.Service
import CxNetworking.Dns.Echo
import CxNetworking.Core.Poller
import CxNetworking.Core.EventLoop
import CxNetworking.Core.Deadlines
import CxNetworking.Core.Cycle
import CxNetworking.Core.Deferred
import CxNetworking.Core.Timers
import CxNetworking.Core.Firing
import CxNetworking.Core.Dispatch
import CxNetworking.Core.Isolation
import CxNetworking.Core.Wakeup
import CxNetworking.Core.Tables
import CxNetworking.Core.Lifecycle
import CxNetworking.Core.StartStop
import CxNetworking.Core.Reactor
import CxNetworking.Core.Service
import CxNetworking.Core.Serial
import CxNetworking.Core.StandalonePoller
import CxNetworking.Core.Signal
import CxNetworking.Core.Once
import CxNetworking.Core.Subscription
import CxNetworking.Core.SharedSignal
import CxNetworking.Core.ThreadPool
import CxNetworking.Core.PoolDrain
import CxNetworking.Core.AsyncEmit
import CxNetworking.Core.Task
import CxNetworking.Dns.Client
import CxNetworking.Dns.ClientCallbacks
import CxNetworking.Dns.Timeouts
import CxNetworking.Dns.Answered
import CxNetworking.Core.SocketOps
import CxNetworking.Core.Endpoint
import CxNetworking.Core.Descriptor
import CxNetworking.Dns.Server
import CxNetworking.Dns.Sections
import CxNetworking.Dns.Exchange
import CxNetworking.Tcp.Socket
import CxNetworking.Tcp.Frames
import CxNetworking.Tcp.Dialling
import CxNetworking.Tcp.Stream
import CxNetworking.Tcp.Close
import CxNetworking.Tcp.Threads
import CxNetworking.Tcp.Backpressure
import CxNetworking.Tcp.Destroy
import CxNetworking.Tcp.Reconnect
import CxNetworking.Tcp.HalfClose
import CxNetworking.Tcp.Link
import CxNetworking.Tcp.Echo
import CxNetworking.Tcp.Failure
import CxNetworking.Tcp.Server
import CxNetworking.Tcp.Drain
import CxNetworking.Udp.Peer
import CxNetworking.Udp.Calls
import CxNetworking.Dns.Listen
import CxNetworking.Protocol.World
import CxNetworking.Protocol.Watches
import CxNetworking.Protocol.Connections
import CxNetworking.Protocol.Silence
import CxNetworking.Protocol.Descriptors
import CxNetworking.Testing.Runner
