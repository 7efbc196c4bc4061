import Fastore.Tree.Integers
import Fastore.Tree.Positions
import Fastore.Buffer.Refused
import Fastore.Index.Ranges
import Fastore.Client.Merge
import Fastore.Client.Generate
import Fastore.Hive.Retry
import Fastore.Hive.Choices
import Fastore.Hive.WorkerColumns
import Fastore.Client.LoadSchema
import Fastore.Client.ConnectionPool
import Fastore.Hive.FirstData
import Fastore.Hive.Commit
import Fastore.Hive.Generator
import Fastore.Hive.Recovery
import Fastore.Store.Transactions
import Fastore.Module.Masks
import Fastore.Module.Session
import Fastore.Server.Polling
import Fastore.Utility.SafeCast
import Fastore.Server.Service
import Fastore.Store.Flush
import Fastore.Tree.LeafStep
