import Floem.Nic.Enqueue
import Floem.Queue.Length
import Floem.Custom.Fifo
import Floem.Nic.Scan
import Floem.Nic.Prefetch
import Floem.Nic.Create
import Floem.Nic.Completion
import Floem.Smart.RoundTrip
import Floem.Smart.Clean
import Floem.Cache.Lossy
import Floem.Cache.Dirty
import Floem.Cache.Results
import Floem.Thread.Buffer
import Floem.Thread.Refcount
import Floem.IR.Edges
import Floem.IR.Channels
import Floem.IR.Merge
import Floem.IR.Ordered
import Floem.Enqueue.Gap
import Floem.Compress.Exact
import Floem.Hasht.Map
import Floem.Hton.Exact
import Floem.Region.Needed
import Floem.DefUse.Sound
import Floem.DefUse.Paths
import Floem.Join.CallOrder
import Floem.Desugar.Insert
import Floem.Join.OrderFree
import Floem.Codegen.Simultaneous
import Floem.Comment.Remove
import Floem.Fire.Sound
import Floem.Storm.Accounting
import Floem.Ialloc.Accounting
