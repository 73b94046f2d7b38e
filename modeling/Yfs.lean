import Yfs.Lock.Wakeup
import Yfs.Lock.Abort
import Yfs.Client.Concurrent
import Yfs.Hdfs.Replication
import Yfs.Hdfs.Restart
import Yfs.Hdfs.Pending
import Yfs.Hdfs.Race
import Yfs.Hdfs.Cycles
import Yfs.Extent.Accounting
import Yfs.Hdfs.Move
import Yfs.Hdfs.Committed
import Yfs.Hdfs.DeleteAll
import Yfs.Hdfs.IntoFile
import Yfs.Extent.Times
import Yfs.Lock.Answers
import Yfs.Hdfs.Replicate
import Yfs.Extent.InodeTable
import Yfs.Lock.HandleCount
import Yfs.Client.FuseListing
import Yfs.Rpc.ExtentStubs
import Yfs.Hdfs.Connection
import Yfs.Hdfs.MountView
import Yfs.Hdfs.PipelineAcks
import Yfs.Client.Cluster
