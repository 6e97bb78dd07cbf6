import OxKernel.Lib.Machine
import OxKernel.Lib.Loop
import OxKernel.Lib.Layout
import OxKernel.Lib.Attempt
import OxKernel.Lib.Calendar
import OxKernel.Lib.Reach
import OxKernel.Lib.Words
import OxKernel.Lib.BitField
import OxKernel.Fs.Device
import OxKernel.Fs.Cache
import OxKernel.Fs.CacheFailures
import OxKernel.Fs.CacheInvariant
import OxKernel.Fs.CacheSync
import OxKernel.Fs.CacheRefinement
import OxKernel.Fs.CacheBuilds
import OxKernel.Fs.CacheVictims
import OxKernel.Fs.Bitmap
import OxKernel.Fs.SignedBitmap
import OxKernel.Fs.Volume
import OxKernel.Fs.Allocator
import OxKernel.Fs.AllocatorSpec
import OxKernel.Fs.Mount
import OxKernel.Fs.AllocatorRuns
import OxKernel.Fs.AllocatorRecord
import OxKernel.Fs.AllocatorFailures
import OxKernel.Fs.AllocatorWindows
import OxKernel.Fs.Capacity
import OxKernel.Fs.Inode
import OxKernel.Fs.File
import OxKernel.Fs.FileMoves
import OxKernel.Fs.FileRuns
import OxKernel.Fs.Components
import OxKernel.Fs.Realpath
import OxKernel.Fs.PathBuffers
import OxKernel.Fs.PathBufferLaw
import OxKernel.Lib.Noted
import OxKernel.Fs.PathActivations
import OxKernel.Fs.PathTokens
import OxKernel.Fs.FileChain
import OxKernel.Fs.FileTransfer
import OxKernel.Fs.FileLocate
import OxKernel.Fs.FileCalls
import OxKernel.Fs.Seek
import OxKernel.Lib.Call
import OxKernel.Lib.Checked
import OxKernel.Lib.Trace
import OxKernel.Lib.Traced
import OxKernel.Lib.Ring
import OxKernel.Fs.Paths
import OxKernel.Fs.Permission
import OxKernel.Fs.PermissionLaw
import OxKernel.Fs.Lookup
import OxKernel.Fs.LookupRules
import OxKernel.Fs.Create
import OxKernel.Fs.Process
import OxKernel.Fs.FileOpen
import OxKernel.Fs.Dir
import OxKernel.Fs.MountFailures
import OxKernel.Fs.Node
import OxKernel.Fs.Resolve
import OxKernel.Fs.DirRuns
import OxKernel.Fs.Blocks
import OxKernel.Fs.Tree
import OxKernel.Fs.TreeChanges
import OxKernel.Fs.Stored
import OxKernel.Fs.Unlink
import OxKernel.Fs.UnlinkLaw
import OxKernel.Fs.Leaves
import OxKernel.Fs.Accounting
import OxKernel.Mm.Page
import OxKernel.Mm.PageScan
import OxKernel.Mm.PageRuns
import OxKernel.Mm.PageSafety
import OxKernel.Mm.PageSearch
import OxKernel.Mm.Kmalloc
import OxKernel.Mm.KmallocSteps
import OxKernel.Mm.KmallocInvariant
import OxKernel.Mm.KmallocRuns
import OxKernel.Mm.KmallocSafety
import OxKernel.Mm.KmallocRequests
import OxKernel.Fs.Descriptors
import OxKernel.Fs.DescriptorBounds
import OxKernel.Fs.DescriptorRuns
import OxKernel.Fs.LinkCount
import OxKernel.Fs.Searched
import OxKernel.Fs.Termination
import OxKernel.Fs.Cycles
import OxKernel.Fs.AllocatorNext
import OxKernel.Fs.TreeGrowth
import OxKernel.Fs.CreatePlace
import OxKernel.Fs.CreateGrowth
import OxKernel.Fs.CreateSteps
import OxKernel.Fs.CreateRoom
import OxKernel.Fs.CreateLaw
import OxKernel.Lib.NameTree
import OxKernel.Fs.NameSpace
import OxKernel.Fs.LinkCycles
import OxKernel.Fs.TreeRuns
import OxKernel.Lib.Tracks
import OxKernel.Fs.Stores
import OxKernel.Fs.StorePaths
import OxKernel.Fs.OverCache
import OxKernel.Lib.Family
import OxKernel.Fs.FileArrays
import OxKernel.Fs.FilePieces
import OxKernel.Fs.StoreFiles
import OxKernel.Fs.FilesOverCache
import OxKernel.Fs.Remount
import OxKernel.Fs.CurrentDir
import OxKernel.Fs.Truncate
import OxKernel.Kernel.Process
import OxKernel.Kernel.Queue
import OxKernel.Kernel.QueueRuns
import OxKernel.Kernel.Scheduler
import OxKernel.Kernel.Exit
import OxKernel.Kernel.Fork
import OxKernel.Kernel.ForkRuns
import OxKernel.Kernel.ForkFiles
import OxKernel.Kernel.ScheduleSpec
import OxKernel.Kernel.Balance
import OxKernel.Kernel.Alarm
import OxKernel.Kernel.Kill
import OxKernel.Kernel.SignalExec
import OxKernel.Kernel.Wait
import OxKernel.Kernel.ExitSpec
import OxKernel.Kernel.Eligible
import OxKernel.Kernel.WaitRuns
import OxKernel.Lib.Exact
import OxKernel.Kernel.Exec
import OxKernel.Kernel.ExecSafety
import OxKernel.Kernel.Ktime
import OxKernel.Kernel.Misc
import OxKernel.Platform.IoReq
import OxKernel.Lib.Tally
import OxKernel.Kernel.DefInt
import OxKernel.Kernel.DefIntPending
import OxKernel.Kernel.DefIntTable
import OxKernel.Lib.Circle
import OxKernel.Platform.Interrupt
import OxKernel.Platform.SharedIrq
import OxKernel.Platform.IrqProbe
import OxKernel.Platform.Pio
import OxKernel.Platform.Console
import OxKernel.Platform.Keyboard
import OxKernel.Platform.KeyboardQueue
import OxKernel.Mm.Malloc
import OxKernel.Mm.SignedMap
import OxKernel.Mm.Pools
import OxKernel.Mm.MallocRuns
import OxKernel.Lib.Gives
import OxKernel.Kernel.ExecPlace
import OxKernel.Kernel.ExecLayout
import OxKernel.Kernel.Kexecve
import OxKernel.Lib.Keeps
import OxKernel.Platform.Segment
import OxKernel.Kernel.Identity
import OxKernel.Kernel.Tasks
import OxKernel.Kernel.TaskRuns
import OxKernel.Lib.Numeral
import OxKernel.Lib.Printf
import OxKernel.Libk.Conversions
import OxKernel.Libk.RoundTrip
import OxKernel.Libk.Strtoul
import OxKernel.Libk.Bit
import OxKernel.Libk.Compare
import OxKernel.Libk.Memory
import OxKernel.Libk.Strtok
import OxKernel.Libk.StrtokLaw
import OxKernel.Libk.Vsprintk
import OxKernel.Libk.VsprintkFormats
import OxKernel.Libk.VsprintkIntegers
import OxKernel.Kernel.Mktime
import OxKernel.Libk.VsprintkArguments
import OxKernel.Libk.VsprintkScratch
import OxKernel.Libk.VsprintkLaw
import OxKernel.Libk.VsprintkAnsi
import OxKernel.Lib.Translation
import OxKernel.Mm.PageTables
import OxKernel.Mm.AddressSpace
