import Horizon64.Lib.Words
import Horizon64.Lib.Bytes
import Horizon64.Lib.BitArray
import Horizon64.Lib.Ledger
import Horizon64.Phys
import Horizon64.FreeSize
import Horizon64.PmInit
import Horizon64.LiveBlocks
import Horizon64.Kmalloc
import Horizon64.HeapRuns
import Horizon64.Lib.Splice
import Horizon64.Ram
import Horizon64.RamHeap
import Horizon64.Lib.FlatMap
import Horizon64.Lib.Radix
import Horizon64.Paging
import Horizon64.PagingTree
import Horizon64.Lib.Folds
import Horizon64.PagingMap
import Horizon64.PagingUnmap
import Horizon64.PagingRuns
import Horizon64.Lib.Search
import Horizon64.PmGet
import Horizon64.PmInitBytes
import Horizon64.Pci
import Horizon64.Lib.While
import Horizon64.Madt
import Horizon64.Acpi
import Horizon64.Vector
import Horizon64.VectorBounds
import Horizon64.PagingTranslate
import Horizon64.AddressSpaces
import Horizon64.VmInit
import Horizon64.Mirror
import Horizon64.PmAllocate
import Horizon64.KmallocSizes
import Horizon64.Klog
import Horizon64.Terminal
import Horizon64.Cmos
import Horizon64.Lib.Interleaving
import Horizon64.SpinLock
import Horizon64.Isr
import Horizon64.Pic
import Horizon64.ApicTimer
import Horizon64.IsoFile
import Horizon64.Lib.Numerals
import Horizon64.Numbers
import Horizon64.Formats
import Horizon64.PciBar
import Horizon64.Rsdp
import Horizon64.SdtLookup
import Horizon64.HpetTable
import Horizon64.Hpet
import Horizon64.Pit
import Horizon64.Glyphs
import Horizon64.Psf
import Horizon64.Scroll
import Horizon64.Backspace
import Horizon64.Keyboard
import Horizon64.Ps2
import Horizon64.Memory
import Horizon64.PicRequests
import Horizon64.Lib.Packed
import Horizon64.Descriptors
import Horizon64.Irq
import Horizon64.Clock
import Horizon64.TextGrid
import Horizon64.Transcript
import Horizon64.Lib.Isolation
import Horizon64.PageOwners
import Horizon64.MemoryClients
import Horizon64.Lib.Lookaside
import Horizon64.Tlb
import Horizon64.Typing
import Horizon64.Serial
import Horizon64.ApicInit
import Horizon64.TableFrames
import Horizon64.LostMap
