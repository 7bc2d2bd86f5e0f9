import VectorForth.Lib.ByteMemory
import VectorForth.Lib.Run
import VectorForth.Lib.RoundRobin
import VectorForth.Lib.Recency
import VectorForth.Lib.Bitmap
import VectorForth.Lib.Masks
import VectorForth.Lib.Overlap
import VectorForth.Lib.BlockList
import VectorForth.Lib.RadixTree
import VectorForth.Lib.Segments
import VectorForth.Lib.LowestFirst
import VectorForth.Memory.Pmm
import VectorForth.Memory.PmmAccounting
import VectorForth.Memory.PmmSearch
import VectorForth.Memory.PmmOwnership
import VectorForth.Memory.PmmReserved
import VectorForth.Memory.PmmFirstFit
import VectorForth.Memory.PmmFirmware
import VectorForth.Memory.PmmRegions
import VectorForth.Memory.Heap
import VectorForth.Memory.HeapBlocks
import VectorForth.Memory.HeapOps
import VectorForth.Memory.HeapRuns
import VectorForth.Memory.HeapRelease
import VectorForth.Memory.HeapAligned
import VectorForth.Memory.HeapLimits
import VectorForth.Memory.HeapOwned
import VectorForth.Memory.Vmm
import VectorForth.Memory.PageTree
import VectorForth.Memory.PageMap
import VectorForth.Memory.BootTables
import VectorForth.Memory.TableSupply
import VectorForth.Memory.PageRuns
import VectorForth.Memory.PagePool
import VectorForth.Memory.TablePages
import VectorForth.Fs.BlockDevice
import VectorForth.Fs.Ata
import VectorForth.Fs.BlockCache
import VectorForth.Fs.Eviction
import VectorForth.Fs.BlockKept
import VectorForth.Fs.FileSystem
import VectorForth.Vm.State
import VectorForth.Vm.Text
import VectorForth.Vm.Dictionary
import VectorForth.Vm.Words
import VectorForth.Vm.Machine
import VectorForth.Vm.Code
import VectorForth.Vm.Structured
import VectorForth.Vm.Stepping
import VectorForth.Vm.Effects
import VectorForth.Vm.Tasks
import VectorForth.Vm.Fork
import VectorForth.Vm.Interleaving
import VectorForth.Vm.Simulation
import VectorForth.Vm.Abort
import VectorForth.Vm.Reentrancy
import VectorForth.Vm.ReturnStack
import VectorForth.Vm.Threaded
import VectorForth.Vm.Compile
import VectorForth.Vm.Outer
import VectorForth.Vm.Define
import VectorForth.Vm.Primitives
import VectorForth.Vm.ControlFlow
import VectorForth.Vm.Branches
import VectorForth.Kernel.Task
import VectorForth.Kernel.Context
import VectorForth.Kernel.Scheduling
import VectorForth.Kernel.Suspended
import VectorForth.Kernel.Creation
import VectorForth.Kernel.Switching
import VectorForth.Kernel.TaskHeap
import VectorForth.Kernel.Resumption
import VectorForth.Vm.Startup
import VectorForth.Vm.Headers
import VectorForth.Vm.Growth
import VectorForth.Vm.Links
import VectorForth.Vm.Lookup
import VectorForth.Vm.Bounds
import VectorForth.Vm.Division
import VectorForth.Vm.StackEffects
import VectorForth.Vm.Simd
import VectorForth.Vm.Numerals
import VectorForth.Vm.Tokens
import VectorForth.Vm.See
import VectorForth.Vm.Failing
import VectorForth.Lib.CallStack
import VectorForth.Lib.Crc
import VectorForth.Fs.Checksum
import VectorForth.Fs.PowerFailure
import VectorForth.Kernel.Stdlib
import VectorForth.Vm.Formatting
import VectorForth.Lib.Ring
import VectorForth.Kernel.Keyboard
import VectorForth.Kernel.Modifiers
import VectorForth.Lib.Terminal
import VectorForth.Kernel.Interrupts
import VectorForth.Kernel.Irq
import VectorForth.Kernel.Vga
import VectorForth.Kernel.Strings
import VectorForth.Vm.LineInput
import VectorForth.Vm.Editor
import VectorForth.Vm.Calculation
import VectorForth.Vm.Modes
import VectorForth.Lib.StackUse
import VectorForth.Lib.TwoRuns
import VectorForth.Vm.Hiding
import VectorForth.Vm.Locality
import VectorForth.Vm.Extension
import VectorForth.Vm.Inclusion
import VectorForth.Vm.WordUse
import VectorForth.Vm.Listing
import VectorForth.Memory.Frames
import VectorForth.Memory.Pointers
import VectorForth.Memory.HugePages
import VectorForth.Vm.DictSpace
import VectorForth.Vm.Session
import VectorForth.Fs.Pio
import VectorForth.Fs.PioBlocks
