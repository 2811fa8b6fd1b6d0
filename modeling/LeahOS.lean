import LeahOS.Fs.LifetimeRuns
import LeahOS.Fs.Pipe
import LeahOS.Kernel.Departed
import LeahOS.Kernel.Execute
import LeahOS.Kernel.HandleLife
import LeahOS.Kernel.Program
import LeahOS.Kernel.Replies
import LeahOS.Kernel.Slots
import LeahOS.Kernel.Transfer
import LeahOS.Kernel.Waking
import LeahOS.Libc.InflateStreams
import LeahOS.Libc.Mutex
import LeahOS.Libc.Paths
import LeahOS.Libc.RegexMatcher
import LeahOS.Mm.Arena
import LeahOS.Mm.Brk
import LeahOS.Mm.DeepCopy
import LeahOS.Mm.Exact
import LeahOS.Mm.HeapRuns
import LeahOS.Mm.Munmap
import LeahOS.Mm.Shm
import LeahOS.Net.Socket
import LeahOS.Sched.Channels
import LeahOS.Sched.Groups
import LeahOS.Sched.Sessions
import LeahOS.User.Diff
import LeahOS.Vfsd.Bitmaps
import LeahOS.Vfsd.Cache
import LeahOS.Vfsd.Crash
import LeahOS.Vfsd.DataRequests
import LeahOS.Vfsd.Lookup
import LeahOS.Vfsd.Refused
import LeahOS.Vfsd.Routing
