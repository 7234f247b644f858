import ChCore.Object.SlotTableRuns
import ChCore.Object.Recycle
import ChCore.Object.ThreadExit
import ChCore.Ipc.Call
import ChCore.Ipc.NotificationTimeout
import ChCore.Tmpfs.Dirs
import ChCore.Tmpfs.Lifetimes
import ChCore.Musl.Pipe
import ChCore.Mm.Tlb
import ChCore.Mm.MapPmo
import ChCore.Lwip.Sockets
import ChCore.Procmgr.Badge
import ChCore.Mm.BuddyRuns
import ChCore.Mm.WordSizes
import ChCore.Object.PmoAccess
import ChCore.Mm.SharedFaults
import ChCore.Mm.Uaccess
import ChCore.Object.Revoke
import ChCore.Mm.SlabRace
import ChCore.Fsm.Descriptors
import ChCore.Musl.Radix
import ChCore.Object.TranslateAarray
import ChCore.Ipc.SendCap
import ChCore.Sched.Running
import ChCore.Irq.LockOrder
import ChCore.Sched.Priority
import ChCore.Tmpfs.Ranges
import ChCore.Tmpfs.Entries
import ChCore.Musl.FdOps
import ChCore.Musl.Futex
import ChCore.Procmgr.Wait
import ChCore.Drivers.Dtb
import ChCore.Sync.Rwlock
