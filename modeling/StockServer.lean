import StockServer.Lib.Machine
import StockServer.Lib.Progress
import StockServer.Lib.SearchTree
import StockServer.Lib.Heap
import StockServer.Lib.HeapTree
import StockServer.Lib.Bytes
import StockServer.Lib.Scanf
import StockServer.Lib.Formats
import StockServer.Lib.Disk
import StockServer.Lib.FsProgram
import StockServer.Lib.Monitor
import StockServer.Lib.Serial
import StockServer.Lib.Alike
import StockServer.Lib.Hanging
import StockServer.Lib.Journal
import StockServer.Lib.Dialogue
import StockServer.Lib.Commute
import StockServer.Stock
import StockServer.Store
import StockServer.StoreMap
import StockServer.StoreHeap
import StockServer.StoreLifetime
import StockServer.Request
import StockServer.Grammar
import StockServer.Response
import StockServer.Appends
import StockServer.Execute
import StockServer.Independence
import StockServer.Answers
import StockServer.Rio
import StockServer.HandleClient
import StockServer.Clients
import StockServer.Workers
import StockServer.Linearizability
import StockServer.IoFailure
import StockServer.ConnQueue
import StockServer.QueueProgress
import StockServer.Shutdown
import StockServer.StopWorkers
import StockServer.PoolProgress
import StockServer.PoolService
import StockServer.WorkersProgress
import StockServer.AcceptLoop
import StockServer.Accounting
import StockServer.Records
import StockServer.StockFile
import StockServer.TradeLog
import StockServer.Persistence
import StockServer.TornLog
import StockServer.Parsers
import StockServer.WholeLines
import StockServer.Publish
import StockServer.Listing
import StockServer.Recovery
import StockServer.CrashSafety
import StockServer.Calls
import StockServer.Cleanup
import StockServer.ArtifactNames
import StockServer.Authority
import StockServer.Bootstrap
import StockServer.Restart
import StockServer.Generations
import StockServer.FailedPublish
import StockServer.PartialRecovery
import StockServer.Durability
import StockServer.RecoveredShape
import StockServer.Standing
import StockServer.OpenFiles
import StockServer.Sessions
import StockServer.Availability
import StockServer.Installation
