import Rocket.Common.ErrorCode
import Rocket.Common.Log
import Rocket.Common.LogDelivery
import Rocket.Common.LogPipeline
import Rocket.Common.LogRotation
import Rocket.Common.LogSync
import Rocket.Common.MsgUtil
import Rocket.Common.Mutex
import Rocket.Common.Util
import Rocket.Coroutine.CoctxSwap
import Rocket.Coroutine.Coroutine
import Rocket.Coroutine.CoroutineHook
import Rocket.Coroutine.CoroutinePool
import Rocket.Coroutine.Lossless
import Rocket.Coroutine.NativeThread
import Rocket.Coroutine.Reentry
import Rocket.Coroutine.Transfer
import Rocket.Coroutine.WaitCallbacks
import Rocket.Coroutine.WaitEnds
import Rocket.Coroutine.WaitKept
import Rocket.Coroutine.WokenByWait
import Rocket.Foundation.Block
import Rocket.Foundation.Decimal
import Rocket.Foundation.History
import Rocket.Foundation.Hosting
import Rocket.Foundation.KeyedStore
import Rocket.Foundation.Loop
import Rocket.Foundation.Machine
import Rocket.Foundation.Multimap
import Rocket.Foundation.PrefixCode
import Rocket.Foundation.Queue
import Rocket.Foundation.Traced
import Rocket.Foundation.Word
import Rocket.Net.Coder.Decode
import Rocket.Net.Coder.Encode
import Rocket.Net.Coder.Field
import Rocket.Net.Coder.Genuine
import Rocket.Net.Coder.Pass
import Rocket.Net.Coder.Pieces
import Rocket.Net.Coder.Resync
import Rocket.Net.Coder.RoundTrip
import Rocket.Net.Coder.Safety
import Rocket.Net.Coder.Scan
import Rocket.Net.Coder.Stream
import Rocket.Net.Coder.Termination
import Rocket.Net.Coder.TinyPBProtocol
import Rocket.Net.Coder.Unique
import Rocket.Net.Epoll
import Rocket.Net.EpollGroup
import Rocket.Net.EpollMirror
import Rocket.Net.EventLoop
import Rocket.Net.FdEventGroup
import Rocket.Net.GroupTasks
import Rocket.Net.IOThread
import Rocket.Net.IOThreadResources
import Rocket.Net.IOThreadStart
import Rocket.Net.IOThreadTasks
import Rocket.Net.Rpc.CallMethod
import Rocket.Net.Rpc.Discovery
import Rocket.Net.Rpc.FailedCall
import Rocket.Net.Rpc.FirstCall
import Rocket.Net.Rpc.Outcome
import Rocket.Net.Rpc.Report
import Rocket.Net.Rpc.Routing
import Rocket.Net.Rpc.RpcChannel
import Rocket.Net.Rpc.RpcController
import Rocket.Net.Rpc.RpcDispatcher
import Rocket.Net.Rpc.RpcRegistry
import Rocket.Net.Rpc.RunTime
import Rocket.Net.Rpc.SessionCalls
import Rocket.Net.TaskOrder
import Rocket.Net.TasksRun
import Rocket.Net.Tcp.Accept
import Rocket.Net.Tcp.BufferQueue
import Rocket.Net.Tcp.CallEvent
import Rocket.Net.Tcp.CallTimer
import Rocket.Net.Tcp.ClientCall
import Rocket.Net.Tcp.Connect
import Rocket.Net.Tcp.ConnectionLoop
import Rocket.Net.Tcp.Excute
import Rocket.Net.Tcp.MoveReadIndex
import Rocket.Net.Tcp.NetAddr
import Rocket.Net.Tcp.Read
import Rocket.Net.Tcp.Replies
import Rocket.Net.Tcp.Reply
import Rocket.Net.Tcp.ServerClients
import Rocket.Net.Tcp.TcpBuffer
import Rocket.Net.Tcp.TcpClient
import Rocket.Net.Tcp.TcpConnection
import Rocket.Net.Tcp.TcpServer
import Rocket.Net.Tcp.Write
import Rocket.Net.Timer
import Rocket.Net.TimerArm
import Rocket.Net.TimerBatch
import Rocket.Net.TimerFires
import Rocket.Net.TimerQueue
import Rocket.Net.Wakeup
