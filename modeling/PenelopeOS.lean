import PenelopeOS.Machine.ByteMemory
import PenelopeOS.Foundation.Extent
import PenelopeOS.Foundation.Segment
import PenelopeOS.Limine.MemoryMap
import PenelopeOS.Memory.MemoryList
import PenelopeOS.Memory.BlockHeaders
import PenelopeOS.Memory.FreeList
import PenelopeOS.Memory.AllocHeap
import PenelopeOS.Memory.Free
import PenelopeOS.Foundation.Run
import PenelopeOS.Memory.Arena
import PenelopeOS.Memory.HeapRun
import PenelopeOS.Memory.Headers
import PenelopeOS.Memory.HeapTiling
import PenelopeOS.Memory.FreeOrder
import PenelopeOS.Memory.Payload
import PenelopeOS.Memory.Coalescing
import PenelopeOS.Memory.FirstFit
import PenelopeOS.Memory.StackChunks
import PenelopeOS.Memory.HeaderList
import PenelopeOS.Memory.FrameEnumeration
import PenelopeOS.Memory.StartOfRam
import PenelopeOS.Memory.Paging
import PenelopeOS.Memory.PageTables
import PenelopeOS.Memory.LinearAddress
import PenelopeOS.Foundation.DoublyLinked
import PenelopeOS.Proc.QueueTable
import PenelopeOS.Proc.Fifo
import PenelopeOS.Proc.PriorityQueue
import PenelopeOS.Proc.InsertBounds
import PenelopeOS.Proc.ProcessTable
import PenelopeOS.Memory.PageNumbers
import PenelopeOS.Machine.PageWalk
import PenelopeOS.Machine.Processor
import PenelopeOS.Machine.InterruptFrame
import PenelopeOS.Cpu.Isr
import PenelopeOS.Cpu.InterruptReturn
import PenelopeOS.Cpu.RegisterTransparency
import PenelopeOS.Proc.PopLast
import PenelopeOS.Proc.QueueCreation
import PenelopeOS.Proc.ForwardChains
import PenelopeOS.Proc.PopFirst
import PenelopeOS.Console.Logger
import PenelopeOS.Proc.ProcessSearch
import PenelopeOS.Console.Kostream
import PenelopeOS.Cpu.Descriptors
import PenelopeOS.Cpu.InterruptGates
import PenelopeOS.Io.Pci
import PenelopeOS.Memory.ByteCopies
import PenelopeOS.Memory.ByteStrings
import PenelopeOS.Foundation.ObjectStore
import PenelopeOS.Memory.Clients
import PenelopeOS.Console.Output
import PenelopeOS.Memory.EntryDump
import PenelopeOS.Limine.MapDump
import PenelopeOS.Proc.QueueDump
import PenelopeOS.Console.Reports
import PenelopeOS.Cpu.SystemTables
import PenelopeOS.Machine.PageTree
import PenelopeOS.Memory.BootTables
import PenelopeOS.Cpu.ContextDump
import PenelopeOS.Memory.AddressSpaces
import PenelopeOS.Memory.TableDump
import PenelopeOS.Machine.VirtualMemory
import PenelopeOS.Memory.FaultSearch
import PenelopeOS.Io.Ata
import PenelopeOS.Memory.FrameDump
import PenelopeOS.Cpu.FaultReturn
import PenelopeOS.Io.PciDump
import PenelopeOS.Cpu.GateLog
import PenelopeOS.Memory.LimitProbes
import PenelopeOS.Cpu.SegmentLog
import PenelopeOS.Memory.BootLog
