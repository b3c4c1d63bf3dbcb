import LionOS.Lib.Memory
import LionOS.Lib.Chain
import LionOS.Lib.Sorting
import LionOS.Lib.Radix
import LionOS.Lib.Numerals
import LionOS.Lib.AddressSpace
import LionOS.Lib.X86
import LionOS.Lib.Cyclic
import LionOS.Lib.Ring
import LionOS.Lib.Blocks
import LionOS.Lib.Painting
import LionOS.Lib.Terminal
import LionOS.Lib.Occurrences
import LionOS.Lib.TestAndSet
import LionOS.Lib.Pic8259
import LionOS.Lib.Naming
import LionOS.Lib.Atomic
import LionOS.Support.Bytes
import LionOS.Sync.SpinLock
import LionOS.Heap.KernelHeap
import LionOS.Heap.FreeList
import LionOS.Heap.Alloc
import LionOS.Heap.Dealloc
import LionOS.Heap.Runs
import LionOS.Heap.Conservation
import LionOS.Heap.Order
import LionOS.Heap.Accounting
import LionOS.Heap.Idle
import LionOS.Frames.FrameAllocator
import LionOS.Frames.FreeFrames
import LionOS.Frames.Refinement
import LionOS.Frames.Slots
import LionOS.Boot.MemoryMap
import LionOS.Boot.FrameMap
import LionOS.Boot.Handoff
import LionOS.Paging.Tables
import LionOS.Paging.Walk
import LionOS.Paging.Mapping
import LionOS.Paging.Access
import LionOS.Paging.Kept
import LionOS.Paging.UserAccess
import LionOS.Paging.UserRegion
import LionOS.Paging.Fresh
import LionOS.Paging.Failure
import LionOS.Paging.Takeover
import LionOS.Paging.Memory
import LionOS.Paging.Regions
import LionOS.Boot.SelfTest
import LionOS.Gdt.Descriptors
import LionOS.Gdt.TaskState
import LionOS.Sched.Scheduler
import LionOS.Sched.Coroutine
import LionOS.Sched.Switching
import LionOS.Sched.RoundRobin
import LionOS.Sched.TaskFn
import LionOS.Sched.IdleLoop
import LionOS.Sched.Rotation
import LionOS.Interrupts.Deferred
import LionOS.Interrupts.Preemption
import LionOS.Interrupts.Atomicity
import LionOS.Interrupts.Idt
import LionOS.Interrupts.Controllers
import LionOS.Interrupts.Served
import LionOS.User.Elf
import LionOS.User.ProgramHeaders
import LionOS.User.Loader
import LionOS.User.UserRange
import LionOS.User.Placement
import LionOS.User.Stack
import LionOS.User.Refinement
import LionOS.User.Supply
import LionOS.User.Image
import LionOS.User.Bounds
import LionOS.User.Faults
import LionOS.User.Inside
import LionOS.User.Confinement
import LionOS.Console.Serial
import LionOS.Console.Decimal
import LionOS.Console.SerialLock
import LionOS.Console.Vga
import LionOS.Ipc.Mailbox
import LionOS.Ipc.Delivery
import LionOS.Syscall.Entry
import LionOS.Syscall.Selectors
import LionOS.Syscall.Dispatch
import LionOS.Syscall.Flags
import LionOS.Syscall.Process
import LionOS.Drivers.Mouse
import LionOS.Drivers.Pci
import LionOS.Drivers.AtaChannel
import LionOS.Drivers.Ide
import LionOS.Drivers.Speaker
import LionOS.Drivers.FaceId
import LionOS.Virtio.Setup
import LionOS.Virtio.Capabilities
import LionOS.Virtio.Publication
import LionOS.Virtio.Completion
import LionOS.Fs.Volume
import LionOS.Fs.Names
import LionOS.Fs.File
import LionOS.Fs.Directory
import LionOS.Fs.Paths
import LionOS.Fs.Walk
import LionOS.Fs.Lookup
import LionOS.Fs.ShortNames
import LionOS.Fs.LongNames
import LionOS.Fs.DotDot
import LionOS.Fs.Boot
import LionOS.Fs.Requests
import LionOS.Fs.Tree
import LionOS.Fs.Listed
import LionOS.Gfx.Canvas
import LionOS.Gfx.Pixels
import LionOS.Gfx.Scene
import LionOS.Gfx.Visible
import LionOS.Gfx.Drawable
import LionOS.Gfx.Blit
import LionOS.Gfx.ScaledText
import LionOS.Gfx.Chrome
import LionOS.Framebuffer.Descriptor
import LionOS.Framebuffer.Draw
import LionOS.Framebuffer.Cells
import LionOS.Framebuffer.Text
import LionOS.Framebuffer.Unprintable
import LionOS.Launcher.Manifest
import LionOS.Launcher.Update
import LionOS.Launcher.Toml
import LionOS.Launcher.Toggling
import LionOS.Launcher.Wizard
