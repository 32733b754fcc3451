import MSylar.Lib.Double
import MSylar.Lib.Execution
import MSylar.Lib.Multimap
import MSylar.Lib.Word
import MSylar.Timer.Block
import MSylar.Timer.Manager
import MSylar.Timer.Store
import MSylar.Lib.TimedQueue
import MSylar.Timer.Sequential
import MSylar.Lib.Calls
import MSylar.Timer.Threads
import MSylar.Timer.Arming
import MSylar.Coro.DoIo
import MSylar.Coro.FdContext
import MSylar.Coro.TaskCoro20
import MSylar.Coro.IOManager
import MSylar.Coro.OnceEvent
import MSylar.Coro.SocketFlags
import MSylar.Coro.TaskQueue
import MSylar.Timer.Limit
import MSylar.WebSocket.FrameBuffer
import MSylar.WebSocket.Chunks
import MSylar.WebSocket.Stream
import MSylar.DBPool.Pool
import MSylar.DBPool.Threads
import MSylar.DBPool.Waiters
import MSylar.WebSocket.SendFrame
import MSylar.Basic.FdManager
import MSylar.Coro.Frame
import MSylar.Lib.Bitmap
import MSylar.Lib.Bits
import MSylar.Basic.IdAllocator
import MSylar.Basic.IdFailures
import MSylar.Lib.Json
import MSylar.Basic.ConfigPath
import MSylar.Basic.Address
import MSylar.Basic.Config
import MSylar.Basic.LogDefine
import MSylar.Basic.LogFormatter
import MSylar.Basic.Prefix
import MSylar.WebSocket.Server
import MSylar.WebSocket.HandleClient
import MSylar.Server.Session
import MSylar.Coro.TaskPool
import MSylar.Coro.Wakeup
import MSylar.Coro.Await
import MSylar.Coro.AutoStop
import MSylar.Coro.StateSync
import MSylar.Coro.Complete
import MSylar.Server.Buffer
import MSylar.Server.Http
import MSylar.Server.Pipeline
import MSylar.Server.Handover
import MSylar.Lib.Text
import MSylar.Lib.Transducer
import MSylar.Server.Params
import MSylar.Server.Routes
import MSylar.Server.SendResp
import MSylar.Server.Stop
import MSylar.WebSocket.Close
import MSylar.WebSocket.RecvFrame
import MSylar.Tools.Snowflake
import MSylar.Timer.Reinsert
import MSylar.Timer.LifeCycle
import MSylar.WebSocket.Heartbeat
import MSylar.Coro.TaskThrow
import MSylar.DBPool.Expand
import MSylar.DBPool.Reconnect
import MSylar.DBPool.Query
import MSylar.DBPool.ConnectWrapper
import MSylar.DBPool.Retry
import MSylar.DBPool.ExecuteQuery
import MSylar.DBPool.Stmt
import MSylar.WebSocket.Make
import MSylar.Timer.Failing
import MSylar.Timer.Early
import MSylar.Lib.Lines
import MSylar.Lib.OrderedMap
import MSylar.Http.Parser
import MSylar.Http.Request
import MSylar.Http.Cuts
import MSylar.Http.Calls
import MSylar.Http.RoundTrip
import MSylar.Http.Connection
import MSylar.Http.Response
import MSylar.Http.Answers
import MSylar.Lib.Blocks
import MSylar.Lib.Sha1
import MSylar.WebSocket.Base64
import MSylar.WebSocket.Conversation
import MSylar.WebSocket.Replies
import MSylar.WebSocket.Handshake
