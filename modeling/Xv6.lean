import Xv6.Sched.Kill
import Xv6.Sched.Lag
import Xv6.Sched.Select
import Xv6.Ftable.Runs
import Xv6.Wait.Protocol
import Xv6.Log.Atomic
import Xv6.Log.Reserve
import Xv6.Log.Supply
import Xv6.Fs.Thread
import Xv6.Fault.Locks
import Xv6.Inode.Table
import Xv6.Smp.Order
import Xv6.Smp.Stream
import Xv6.Alloc.Runs
import Xv6.Append.Offset
import Xv6.Virtio.Protocol
import Xv6.Mkfs.Agree
import Xv6.Access.Strings
import Xv6.Access.PageMap
import Xv6.Content.Chunks
import Xv6.Content.DirMap
import Xv6.User.Printint
import Xv6.User.Grep
import Xv6.User.Heap
import Xv6.Console
import Xv6.Uart
import Xv6.Dir.Path
