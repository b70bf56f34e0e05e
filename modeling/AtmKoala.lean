import AtmKoala.Lib.Bytes
import AtmKoala.Lib.Run
import AtmKoala.Lib.Trace
import AtmKoala.Lib.Torn
import AtmKoala.Lib.Ledger
import AtmKoala.Lib.Ring
import AtmKoala.Lib.RingBuffer
import AtmKoala.Lib.Tiling
import AtmKoala.Lib.Forest
import AtmKoala.Lib.Family
import AtmKoala.Lib.Checksum
import AtmKoala.Lib.SeqSpace
import AtmKoala.Lib.Sparse
import AtmKoala.Lib.NameTree
import AtmKoala.Disk
import AtmKoala.Catfs.Layout
import AtmKoala.Catfs.Model
import AtmKoala.Catfs.Bits
import AtmKoala.Catfs.Events
import AtmKoala.Catfs.Slots
import AtmKoala.Catfs.Alloc
import AtmKoala.Catfs.Free
import AtmKoala.Catfs.Write
import AtmKoala.Catfs.Ops
import AtmKoala.Catfs.Steps
import AtmKoala.Catfs.Image
import AtmKoala.Catfs.Agree
import AtmKoala.Catfs.Reach
import AtmKoala.Catfs.Crash
import AtmKoala.Catfs.Contents
import AtmKoala.Catfs.Fsck
import AtmKoala.Catfs.Repair
import AtmKoala.Catfs.Tree
import AtmKoala.Partmgr
import AtmKoala.Catfs.Partition
import AtmKoala.Sched.Model
import AtmKoala.Sched.Queue
import AtmKoala.Sched.Steps
import AtmKoala.Sched.Control
import AtmKoala.Sched.Blocking
import AtmKoala.Sched.Fair
import AtmKoala.Sched.Effects
import AtmKoala.Sched.Idle
import AtmKoala.Sched.Reaping
import AtmKoala.Sched.Sessions
import AtmKoala.Native.Model
import AtmKoala.Native.Pipes
import AtmKoala.Native.Streams
import AtmKoala.Native.Poll
import AtmKoala.Native.Owners
import AtmKoala.Native.Machine
import AtmKoala.Native.Wakeup
import AtmKoala.Native.Accept
import AtmKoala.Native.Kinds
import AtmKoala.Kmalloc.Model
import AtmKoala.Kmalloc.Heap
import AtmKoala.Kmalloc.Runs
import AtmKoala.Kmalloc.Aligned
import AtmKoala.Net.Frame
import AtmKoala.Net.Tcp
import AtmKoala.Net.Wire
import AtmKoala.Net.Loops
import AtmKoala.Net.Session
import AtmKoala.Net.Stream
import AtmKoala.Net.Store
import AtmKoala.Net.Peers
import AtmKoala.Vfs.Ramfs
import AtmKoala.Vfs.Model
import AtmKoala.Vfs.Tree
import AtmKoala.Vfs.Calls
import AtmKoala.Vfs.Paths
import AtmKoala.Vfs.Namespace
import AtmKoala.Vfs.Init
import AtmKoala.Vfs.Buffer
import AtmKoala.Vfs.Normalize
import AtmKoala.Vfs.Lookup
import AtmKoala.Vfs.Names
import AtmKoala.Vfs.Links
import AtmKoala.Vfs.Mounts
import AtmKoala.Vfs.Kernel
import AtmKoala.Vfs.Access
import AtmKoala.Vfs.Search
import AtmKoala.Vfs.Drivers
import AtmKoala.Lib.Memory
import AtmKoala.Paging.Model
import AtmKoala.Paging.Map
import AtmKoala.Paging.Copy
import AtmKoala.Lib.Access
import AtmKoala.Package.Model
import AtmKoala.Package.Frame
import AtmKoala.Package.Archive
import AtmKoala.Package.Wrap
import AtmKoala.Config.Model
import AtmKoala.Config.Set
import AtmKoala.Config.Text
import AtmKoala.Config.RoundTrip
import AtmKoala.Users.Model
import AtmKoala.Users.Session
import AtmKoala.Users.Persist
import AtmKoala.Linux.Getdents
import AtmKoala.Lib.Calendar
import AtmKoala.Time.Civil
import AtmKoala.Time.Tzif
import AtmKoala.Time.Rtc
import AtmKoala.Lib.Requests
import AtmKoala.Ext2.Model
import AtmKoala.Ext2.Inside
import AtmKoala.Ext2.Inodes
import AtmKoala.Terminal.Model
import AtmKoala.Terminal.Scrollback
import AtmKoala.Lib.Region
import AtmKoala.Shell.Readline
import AtmKoala.Shell.Line
import AtmKoala.Shell.Editor
import AtmKoala.Lib.Slots
import AtmKoala.Native.Exec
import AtmKoala.Native.CloseOnExec
import AtmKoala.Native.Fcntl
import AtmKoala.Native.Sole
import AtmKoala.Native.Inherit
import AtmKoala.Native.Dup
import AtmKoala.Kmalloc.Sizes
import AtmKoala.Paging.Fresh
import AtmKoala.Paging.Store
import AtmKoala.Elf.Model
import AtmKoala.Elf.Segments
import AtmKoala.Elf.Rights
import AtmKoala.Linux.Mmap
import AtmKoala.Native.Brk
import AtmKoala.Native.Payload
import AtmKoala.Native.Stack
import AtmKoala.Paging.Frames
import AtmKoala.Elf.Contents
import AtmKoala.Loader.Model
import AtmKoala.Loader.Modules
import AtmKoala.Vfs.MountTable
import AtmKoala.Catfs.ReadBounds
import AtmKoala.Catfs.Truncate
import AtmKoala.Lib.Vectored
import AtmKoala.Native.Vectors
import AtmKoala.Btrfs.Commit
import AtmKoala.Btrfs.Crash
import AtmKoala.Btrfs.Preserve
import AtmKoala.Partmgr.Edit
import AtmKoala.Time.Zones
import AtmKoala.Users.Digest
import AtmKoala.Ext2.Reading
import AtmKoala.Time.Blocks
