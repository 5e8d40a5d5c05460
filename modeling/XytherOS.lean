import XytherOS.Core.Status
import XytherOS.Lib.Links
import XytherOS.Ds.Embedded
import XytherOS.Ds.EmbeddedRefine
import XytherOS.Ds.Bitmap
import XytherOS.Mm.Vmm
import XytherOS.Mm.VmmRefine
import XytherOS.Mm.VmmRun
import XytherOS.Mm.VmmPool
import XytherOS.Mm.Pmm
import XytherOS.Mm.PmmAccount
import XytherOS.Lib.Spans
import XytherOS.Mm.Mmap
import XytherOS.Mm.MmapRefine
import XytherOS.Mm.MmapOps
import XytherOS.Mm.MmapProtect
import XytherOS.Mm.MmapMap
import XytherOS.Mm.MmapRun
import XytherOS.Mm.MmapAccount
import XytherOS.Mm.MmapFile
import XytherOS.Mm.MmapFirst
import XytherOS.Mm.Sbrk
import XytherOS.Sync.Wait
import XytherOS.Sync.Mutex
import XytherOS.Sync.Rwlock
import XytherOS.Sync.RwlockLive
import XytherOS.Sync.Cond
import XytherOS.Lib.Align
import XytherOS.Boot.Multiboot
import XytherOS.Boot.BootAlloc
import XytherOS.Boot.Zones
import XytherOS.Mm.PmmSound
import XytherOS.Boot.ZoneLayout
import XytherOS.Lib.Ledger
import XytherOS.Arch.Paging
import XytherOS.Arch.Pagefault
import XytherOS.Arch.Machine
import XytherOS.Arch.TableLedger
import XytherOS.Arch.TableOps
import XytherOS.Arch.ForkLedger
import XytherOS.Arch.FaultLedger
import XytherOS.Mm.MmapTables
import XytherOS.Arch.MachineLedger
import XytherOS.Arch.ForkShared
import XytherOS.Sync.Event
import XytherOS.Ds.EmbeddedMove
import XytherOS.Sched.Mlfq
import XytherOS.Sched.RunQueues
import XytherOS.Sched.Affinity
import XytherOS.Sync.WaitQueue
import XytherOS.Signal.Sigset
import XytherOS.Signal.Delivery
import XytherOS.Signal.Steps
import XytherOS.Signal.Mask
import XytherOS.Signal.Pending
import XytherOS.Signal.Blocked
import XytherOS.Lib.Places
import XytherOS.Signal.Ownership
import XytherOS.Ds.EmbeddedSorted
import XytherOS.Time.Timer
import XytherOS.Arch.FaultPages
import XytherOS.Arch.Coverage
import XytherOS.Time.Jiffies
import XytherOS.Proc.Process
import XytherOS.Proc.Pids
import XytherOS.Proc.Children
import XytherOS.Proc.Fork
import XytherOS.Proc.Reap
import XytherOS.Proc.Groups
import XytherOS.Fs.Tmpfs
import XytherOS.Sys.Elf
import XytherOS.Sys.ElfLoad
import XytherOS.Lib.Window
import XytherOS.Ds.Ringbuf
import XytherOS.Fs.Pipe
import XytherOS.Fs.PipeLaw
import XytherOS.Fs.Path
import XytherOS.Fs.Traverse
import XytherOS.Fs.TraverseResolve
import XytherOS.Lib.ByteStore
import XytherOS.Fs.TmpfsStore
import XytherOS.Fs.PathString
import XytherOS.Ds.DataQueue
import XytherOS.Ds.DataQueueRefine
import XytherOS.Lib.SearchTree
import XytherOS.Ds.Btree
import XytherOS.Ds.BtreeShape
import XytherOS.Ds.BtreeRefine
import XytherOS.Ds.HashMap
import XytherOS.Ds.HashMapChain
import XytherOS.Ds.HashMapOps
import XytherOS.Ds.HashMapRefine
import XytherOS.Fs.Descriptors
import XytherOS.Fs.DescriptorCount
import XytherOS.Fs.DescriptorLaw
import XytherOS.Fs.Dentries
import XytherOS.Ds.RingbufFifo
import XytherOS.Dev.Console
import XytherOS.Dev.ConsoleMirror
import XytherOS.Dev.ConsoleSafe
import XytherOS.Lib.WordBits
import XytherOS.Ds.BitmapWords
import XytherOS.Ds.BitmapPositions
import XytherOS.Dev.Devices
import XytherOS.Dev.DeviceLaw
import XytherOS.Mm.MmapAddresses
import XytherOS.Mm.MmapHoles
import XytherOS.Mm.MmapFrame
import XytherOS.Arch.ProtectAtomic
import XytherOS.Arch.Clone
import XytherOS.Mm.MmapRefs
import XytherOS.Sync.WakeupOrder
import XytherOS.Sync.EventBroadcast
import XytherOS.Sched.Balance
import XytherOS.Proc.WaitLaw
import XytherOS.Mm.PmmRoundTrip
import XytherOS.Arch.TableView
import XytherOS.Arch.MapAtomic
import XytherOS.Lib.CellCopy
import XytherOS.Mm.VmmRanges
import XytherOS.Arch.Kmem
import XytherOS.Arch.Mount
import XytherOS.Arch.MountView
import XytherOS.Arch.KmemRun
import XytherOS.Arch.MemCopy
import XytherOS.Fs.Icache
import XytherOS.Arch.FaultContents
import XytherOS.Fs.IcacheTransparent
import XytherOS.Fs.PathNormal
import XytherOS.Core.Printf
import XytherOS.Fs.PathBuffer
import XytherOS.Fs.FileWrite
import XytherOS.Fs.TmpfsDir
import XytherOS.Fs.TmpfsNames
import XytherOS.Ds.HashMapIter
import XytherOS.Fs.TmpfsReaddir
import XytherOS.Sys.ElfBounds
import XytherOS.Proc.ThreadFree
import XytherOS.Proc.ForkAtomic
import XytherOS.Dev.XTty
import XytherOS.Dev.XTtyRead
import XytherOS.Dev.XTtyChunks
import XytherOS.Dev.XTtyLine
import XytherOS.Dev.XTtyTurns
import XytherOS.Dev.XTtySafe
import XytherOS.Dev.XTtyEdit
import XytherOS.Lib.WriteLog
import XytherOS.Ds.EmbeddedBeside
import XytherOS.Ds.EmbeddedMigrate
import XytherOS.Ds.EmbeddedOrder
import XytherOS.Ds.HashMapUpsert
import XytherOS.Ds.BtreeTraverse
import XytherOS.Dev.XTtyWrite
import XytherOS.Dev.ConsoleScroll
import XytherOS.Dev.ConsoleCursor
import XytherOS.Ds.HashMapMigrate
import XytherOS.Lib.TreeVisit
import XytherOS.Ds.HashMapInto
import XytherOS.Ds.HashMapComplete
import XytherOS.Mm.ArgList
import XytherOS.Lib.Loop
import XytherOS.Lib.Rings
import XytherOS.Ds.ListHead
import XytherOS.Ds.BitmapBounds
import XytherOS.Fs.PathOwnership
import XytherOS.Lib.Ends
import XytherOS.Proc.GroupLocks
import XytherOS.Str.Scanf
import XytherOS.Str.Memory
import XytherOS.Str.Chars
import XytherOS.Str.Tokenize
import XytherOS.Str.Compare
import XytherOS.Time.Epoch
