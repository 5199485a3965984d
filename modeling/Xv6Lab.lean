import Xv6Lab.Lazy.Bounds
import Xv6Lab.Lazy.Sparse
import Xv6Lab.Paging.Fault
import Xv6Lab.Paging.Rights
import Xv6Lab.Paging.LazyFork
import Xv6Lab.Paging.ForkCopy
import Xv6Lab.Paging.Ownership
import Xv6Lab.Paging.Transparency
import Xv6Lab.Paging.Recent
import Xv6Lab.Paging.Shortage
import Xv6Lab.Paging.FailedFork
import Xv6Lab.Paging.Release
import Xv6Lab.Paging.Fragments
import Xv6Lab.Paging.SwapCall
import Xv6Lab.Paging.Pointers
import Xv6Lab.Sched.Clean
import Xv6Lab.Sched.Quantum
import Xv6Lab.Sched.Shortest
import Xv6Lab.Sched.Order
import Xv6Lab.Sched.Lookup
import Xv6Lab.Sched.RoundRobin
import Xv6Lab.Sched.Parents
import Xv6Lab.Sched.Args
import Xv6Lab.Reap.Reaping
import Xv6Lab.Files.Leak
import Xv6Lab.Files.Itoa
import Xv6Lab.Files.Replay
import Xv6Lab.Files.Stream
import Xv6Lab.Calls.Wolfie
import Xv6Lab.Log.Budget
import Xv6Lab.Queues.Sleepers
import Xv6Lab.Bio.Blocks
import Xv6Lab.Bio.Recent
