import PotatOS.Mem.Pmm
import PotatOS.Lib.Bitmap
import PotatOS.Mem.PmmSpec
import PotatOS.Mem.PmmSafety
import PotatOS.Mem.Kheap
import PotatOS.Mem.PageAllocator
import PotatOS.Mem.KheapChain
import PotatOS.Mem.KheapSafety
import PotatOS.Mem.KheapRuns
import PotatOS.Mem.KheapClients
import PotatOS.Mem.KheapReuse
import PotatOS.Mem.KheapFirst
import PotatOS.Mem.KheapRooms
import PotatOS.Mem.VectorNodes
import PotatOS.Mem.VectorRuns
import PotatOS.Mem.BitmapSize
import PotatOS.Mem.Paging
import PotatOS.Mem.PageTree
import PotatOS.Mem.PagingSpec
import PotatOS.Mem.MapPages
import PotatOS.Mem.Vector
import PotatOS.Tasks.Tasklist
import PotatOS.Tasks.Scheduler
import PotatOS.Tasks.Exclusion
import PotatOS.Tasks.System
import PotatOS.Tasks.Isolation
import PotatOS.Lib.Cpu
import PotatOS.Tasks.SyscallIsr
import PotatOS.Tasks.Switch
import PotatOS.Tasks.Exit
import PotatOS.Tasks.Events
import PotatOS.Tasks.TaskDirectory
import PotatOS.Tasks.SpawnTree
import PotatOS.Tasks.Loader
import PotatOS.Tasks.Spawn
import PotatOS.Tasks.SpawnReturns
import PotatOS.Tasks.Arguments
import PotatOS.Tasks.Placement
import PotatOS.Tasks.KernelHalf
import PotatOS.Lib.Linked
import PotatOS.Fs.TempFs
import PotatOS.Fs.Strings
import PotatOS.Fs.FileData
import PotatOS.Lib.LocalArray
import PotatOS.Utils.Convert
import PotatOS.Utils.Printf
import PotatOS.Fs.Vfs
import PotatOS.Fs.Directory
import PotatOS.Fs.Tree
import PotatOS.Fs.Paths
import PotatOS.Fs.Names
import PotatOS.Fs.Ustar
import PotatOS.Processors.Smp
import PotatOS.Drivers.Apic
import PotatOS.Mem.FirstFit
import PotatOS.Drivers.Renderfont
import PotatOS.Drivers.Keyboard
import PotatOS.Mem.KernelImage
import PotatOS.Mem.DirectMap
import PotatOS.Tasks.Resources
import PotatOS.Fs.Walks
import PotatOS.Fs.Dots
import PotatOS.Fs.Aliases
import PotatOS.Fs.Reused
import PotatOS.Fs.Leftovers
import PotatOS.Fs.LeftoverCalls
import PotatOS.Fs.LeftoverRuns
import PotatOS.Fs.Overread
import PotatOS.Mem.Vmem
import PotatOS.Mem.AllocPages
import PotatOS.Tasks.Mmap
import PotatOS.Tasks.Protection
import PotatOS.Fs.Stdout
import PotatOS.Fs.CurrentDir
import PotatOS.Fs.Devices
import PotatOS.Fs.Drives
import PotatOS.Fs.Rejects
import PotatOS.Fs.Mkdir
import PotatOS.Fs.PathBuffers
import PotatOS.Fs.Blocks
import PotatOS.Fs.Balance
import PotatOS.Fs.FileType
import PotatOS.Fs.OpenedType
import PotatOS.Lib.Trace
import PotatOS.Drivers.KeyboardReads
import PotatOS.Drivers.LineEditing
import PotatOS.Drivers.KeyboardIrq
import PotatOS.Drivers.Framebuffer
import PotatOS.Drivers.Scroll
import PotatOS.Drivers.Display
import PotatOS.Drivers.Escapes
import PotatOS.Drivers.IoApic
import PotatOS.Fs.UstarHeader
import PotatOS.Lib.Locks
import PotatOS.Tasks.SchedulerLocks
import PotatOS.Fs.InodeLayout
import PotatOS.Fs.AddEntry
import PotatOS.Fs.InodeWrites
import PotatOS.Fs.EntryCalls
import PotatOS.Fs.NameField
import PotatOS.Utils.Numerals
import PotatOS.Libc.Memcmp
import PotatOS.Libc.Printf
import PotatOS.Lib.Threads
import PotatOS.Tasks.SelectSteps
import PotatOS.Utils.Console
import PotatOS.Drivers.KeyboardConsole
import PotatOS.Tasks.Rotation
import PotatOS.Tasks.FirstEntry
import PotatOS.Lib.Interrupts
import PotatOS.Libc.Crt0
import PotatOS.Kernel.StackTrace
import PotatOS.Cpu.Exceptions
import PotatOS.Tasks.Suspend
import PotatOS.Mem.TreeFrames
import PotatOS.Tasks.Exhaustion
import PotatOS.Lib.Descriptors
import PotatOS.Cpu.Descriptors
import PotatOS.Cpu.Idt
import PotatOS.Tasks.Lifetime
import PotatOS.Lib.Bytes
import PotatOS.Drivers.FramebufferDevice
import PotatOS.Lib.Regions
import PotatOS.Fs.Separation
import PotatOS.Fs.Independence
