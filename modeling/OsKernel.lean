import OsKernel.Library.Runs
import OsKernel.Library.Chain
import OsKernel.Library.Partition
import OsKernel.Library.Bytes
import OsKernel.Library.DoublyLinked
import OsKernel.Library.Tiling
import OsKernel.Library.Loops
import OsKernel.Library.Lru
import OsKernel.Library.Turns
import OsKernel.Library.Assembly
import OsKernel.Library.Numeral
import OsKernel.Library.KeyedList
import OsKernel.Library.Rotation
import OsKernel.Library.Tenancy
import OsKernel.Library.Simulations
import OsKernel.Library.Fragments
import OsKernel.Library.Rivals
import OsKernel.Library.Layouts
import OsKernel.Memory.Allocator
import OsKernel.Memory.Heap
import OsKernel.Memory.HeapSurgery
import OsKernel.Memory.HeapBlocks
import OsKernel.Memory.HeapRefinement
import OsKernel.Memory.HeapRuns
import OsKernel.Memory.HeapSafety
import OsKernel.Memory.Region
import OsKernel.Memory.StaleFree
import OsKernel.Memory.HeapAccounting
import OsKernel.Memory.HeapDrain
import OsKernel.Memory.HeapFit
import OsKernel.Memory.HeapAllocator
import OsKernel.Memory.Bump
import OsKernel.Memory.Oversized
import OsKernel.Memory.HeapFragmentation
import OsKernel.Memory.HeapHistory
import OsKernel.Drivers.Console
import OsKernel.Drivers.Terminal
import OsKernel.Drivers.Keyboard
import OsKernel.Drivers.Itoa
import OsKernel.Drivers.Printk
import OsKernel.Drivers.ReadInput
import OsKernel.Drivers.Handshake
import OsKernel.Drivers.Screen
import OsKernel.Drivers.Interrupts
import OsKernel.Drivers.Interleaving
import OsKernel.Drivers.Linearization
import OsKernel.Fs.Vfs
import OsKernel.Fs.FileApi
import OsKernel.Fs.Seek
import OsKernel.Fs.Registry
import OsKernel.Fs.Cache
import OsKernel.Fs.CacheTable
import OsKernel.Fs.CacheFailure
import OsKernel.Fs.CacheSizes
import OsKernel.Fs.CachePins
import OsKernel.Fs.CacheLru
import OsKernel.Process.Kernel
import OsKernel.Process.ContextSwitch
import OsKernel.Process.SwitchTo
import OsKernel.Process.Scheduler
import OsKernel.Process.Lifecycle
import OsKernel.Process.Machine
import OsKernel.Process.ReadyQueue
import OsKernel.Process.QueueOperations
import OsKernel.Process.Fifo
import OsKernel.Process.Simulation
import OsKernel.Process.TaskTable
import OsKernel.Process.Ownership
import OsKernel.Process.Invariant
import OsKernel.Process.FifoRuns
import OsKernel.Process.Slots
import OsKernel.Process.Pids
import OsKernel.Process.Reset
import OsKernel.Process.FifoOrder
import OsKernel.Process.FifoSafety
import OsKernel.Process.CreateFailure
import OsKernel.Process.TableHistory
import OsKernel.Process.Transitions
import OsKernel.Process.Waiting
import OsKernel.Process.Delivery
import OsKernel.Process.WaitResult
import OsKernel.Process.SjfPick
import OsKernel.Process.SjfRuns
import OsKernel.Process.SjfWork
import OsKernel.Process.TimeSlices
import OsKernel.Process.Sjf
import OsKernel.Process.Blocking
import OsKernel.Process.CpuTime
import OsKernel.Process.Latency
import OsKernel.Process.Dispatching
import OsKernel.Process.Mirrors
import OsKernel.Process.Monitor
import OsKernel.Process.Monitoring
import OsKernel.Process.Refinement
import OsKernel.Process.SjfAlternation
import OsKernel.System.SharedHeap
import OsKernel.System.Boot
import OsKernel.System.Shell
