import DmfServer.Prog
import DmfServer.Notes
import DmfServer.Chain
import DmfServer.MoveFront
import DmfServer.Timer
import DmfServer.TimerRuns
import DmfServer.TimerRearm
import DmfServer.TimerReentry
import DmfServer.Request
import DmfServer.RequestGrammar
import DmfServer.RequestPrefix
import DmfServer.RequestReparse
import DmfServer.RequestCrash
import DmfServer.HeaderCase
import DmfServer.Table
import DmfServer.Events
import DmfServer.Wiring
import DmfServer.Lifecycle
import DmfServer.Calls
import DmfServer.ReadLoop
import DmfServer.Relay
import DmfServer.Orphans
import DmfServer.Accepting
import DmfServer.Drain
import DmfServer.Isolation
import DmfServer.RequestBody
import DmfServer.RequestRow
import DmfServer.RequestFlush
import DmfServer.RequestChunks
import DmfServer.Response
import DmfServer.ResponseParse
import DmfServer.ResponseRow
import DmfServer.Threads
import DmfServer.HoleHeap
import DmfServer.MinHeap
import DmfServer.Monitor
import DmfServer.TaskQueue
import DmfServer.QueueRuns
import DmfServer.ThreadPool
import DmfServer.Master
import DmfServer.MasterMoves
import DmfServer.MasterRuns
import DmfServer.FailedStart
import DmfServer.MasterStop
import DmfServer.Interleave
import DmfServer.Stepwise
import DmfServer.Books
import DmfServer.Posting
import DmfServer.Statistics
import DmfServer.Steady
import DmfServer.HttpsClose
import DmfServer.Dispatch
import DmfServer.SslServer
import DmfServer.SslLookup
import DmfServer.SslRuns
import DmfServer.RedBlack
import DmfServer.RbTree
import DmfServer.RbHeap
import DmfServer.RbRead
import DmfServer.RbInsert
import DmfServer.RbUnlink
import DmfServer.RbDelete
import DmfServer.HttpRead
import DmfServer.HttpWrite
import DmfServer.TlsEcho
import DmfServer.Lengths
import DmfServer.SslShutdown
import DmfServer.Distribution
import DmfServer.Multipart
import DmfServer.RbRuns
import DmfServer.TlsRelay
import DmfServer.ResponseCalls
import DmfServer.ResponseDefault
import DmfServer.CString
import DmfServer.WebRequest
import DmfServer.WebAccepted
import DmfServer.WebBench
import DmfServer.WebPipe
import DmfServer.SemTest
import DmfServer.ShmTest
import DmfServer.SharedAccept
import DmfServer.Clients
import DmfServer.MinHeapReentry
