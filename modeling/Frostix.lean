import Frostix.Pmm.FirstFit
import Frostix.Vmm.Branches
import Frostix.Vmm.InitCovered
import Frostix.Vmm.RangeMapped
import Frostix.Vmm.IdentityRange
import Frostix.Vmm.UnmapPages
import Frostix.Heap.Runs
import Frostix.Heap.Retry
import Frostix.Heap.Calloc
import Frostix.Heap.Stale
import Frostix.Heap.Alignment
import Frostix.Slab.FreeLists
import Frostix.Slab.Addresses
import Frostix.Vma.Runs
import Frostix.Tty.Cursor
import Frostix.Tty.Decoder
import Frostix.Tar.LongNames
import Frostix.Tar.Checksum
import Frostix.Tar.Truncated
import Frostix.Tar.FullName
import Frostix.Vma.Immediate
import Frostix.Drivers.Keyboard
import Frostix.Drivers.Rtc
import Frostix.Drivers.Screen
import Frostix.Acpi.Cache
import Frostix.Acpi.Madt
import Frostix.Vma.Munmap
import Frostix.Vma.MunmapError
import Frostix.Vma.Frames
import Frostix.Vma.Split
import Frostix.Vma.Mmap
import Frostix.Slab.Destroy
import Frostix.Slab.Create
import Frostix.Slab.Refused
import Frostix.Drivers.VbeBlit
import Frostix.Drivers.VbeLine
import Frostix.E820
import Frostix.Libc.Strtok
import Frostix.Libc.Move
import Frostix.Slab.Lists
import Frostix.Drivers.VgaHex
import Frostix.Libc.PrintfRead
import Frostix.Tty.Page
import Frostix.Tty.Announce
import Frostix.Misc.StackTrace
