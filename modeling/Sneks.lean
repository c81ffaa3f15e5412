import Sneks.Lib.Run
import Sneks.Lib.Ring
import Sneks.Lib.BackIndexed
import Sneks.Lib.Bytes
import Sneks.Lib.Bloom
import Sneks.Lib.Slots
import Sneks.Rollback.Defs
import Sneks.Rollback.Protocol
import Sneks.Rollback.Undo
import Sneks.Io.Lifecycle.Defs
import Sneks.Io.Lifecycle.Queue
import Sneks.Io.Handles.Tables
import Sneks.Io.Handles.Changes
import Sneks.Io.Handles.Names
import Sneks.Io.Handles.Transfers
import Sneks.Io.Handles.Replies
import Sneks.Io.Handles.Fork
import Sneks.Io.Handles.Poll
import Sneks.Pipe.Defs
import Sneks.Pipe.Fifo
import Sneks.Root.Creds
import Sneks.Root.Wakeup
import Sneks.Root.Index
import Sneks.Root.Threads
import Sneks.Sysmem.Calls
import Sneks.Sysmem.Swap
import Sneks.Lib.Circuit
import Sneks.Sysmem.Watermark
import Sneks.Sysmem.Hand
import Sneks.Sysmem.Sweeps
import Sneks.Sysmem.Flags
import Sneks.Sysmem.Brk
import Sneks.Sysmem.Move
import Sneks.Sysmem.Alloc
import Sneks.Sysmsg.Filter
import Sneks.Sysmsg.Broadcast
import Sneks.Sysmsg.Recursive
import Sneks.Sysmsg.Handlers
import Sneks.Lib.Htable
import Sneks.Sysmsg.Subs
import Sneks.Vm.Conservation
import Sneks.Vm.Forkable
import Sneks.Root.Dispositions
import Sneks.Crt.Sigaction
import Sneks.Cookie.Window
import Sneks.Cookie.Key
import Sneks.Exec.Argbuf
import Sneks.Exec.Fdlist
import Sneks.Devices
import Sneks.Lib.Clipped
import Sneks.Stdio.Strtoull
import Sneks.Thrd.Tss
import Sneks.Stdio.Fwrite
import Sneks.Crt.Cloexec
import Sneks.Vm.Munmap
import Sneks.Vm.Mmap
import Sneks.Vm.Last
import Sneks.Vm.First
import Sneks.Vm.Brk
import Sneks.Vm.Freeing
import Sneks.Vm.Shares
import Sneks.Lib.Chains
import Sneks.Vm.PageCache
import Sneks.Thrd.Mtx.Claims
import Sneks.Thrd.Cnd
import Sneks.Crt.Epoll
import Sneks.Crt.EpollCtl
import Sneks.Crt.EpollLevels
import Sneks.Crt.Select
import Sneks.Crt.Sigbottom
import Sneks.Crt.Siginvoke
import Sneks.Stdlib.Env.Mirror
import Sneks.Squashfs.Nodes
import Sneks.Squashfs.Propagate
import Sneks.Squashfs.Resolve
import Sneks.Squashfs.Image
import Sneks.Squashfs.Metadata
import Sneks.Squashfs.Read
import Sneks.Squashfs.Position
import Sneks.Squashfs.Directory
import Sneks.Squashfs.Listing
import Sneks.Squashfs.Lookup
import Sneks.Root.Asserts
import Sneks.Root.Pids
import Sneks.Root.Pending
import Sneks.Root.Portion
import Sneks.Lib.Segments
import Sneks.Root.Arguments
import Sneks.Lib.Dyadic
import Sneks.Mm
import Sneks.Exec.Configure
import Sneks.Exec.Elf
import Sneks.Exec.Startup.Delivery
import Sneks.Lib.Memory
import Sneks.Stdlib.Memmove
import Sneks.Stdlib.Memset
import Sneks.Mounts.Umount
import Sneks.Mounts.Chain
import Sneks.Stdlib.Memchr
import Sneks.Stdlib.Strchr
import Sneks.Stdlib.Strstr
import Sneks.Stdlib.StrscpyBounds
import Sneks.Stdlib.Strtol
import Sneks.Stdlib.Strncmp
import Sneks.Stdio.Vfprintf
import Sneks.Thrd.Mtx.Asserts
import Sneks.Crt.Execvpe
import Sneks.Crt.Heap
import Sneks.Stdlib.Qsort
import Sneks.Thrd.Join
import Sneks.Rbtree.Insert
import Sneks.Rbtree.Erase
import Sneks.Rbtree.Walk
