import Frostix.Lib.ByteMemory
import Frostix.Pmm.WellFormed

/-!
`pmm_init`. The bitmap is placed in the memory that also holds the boot
information, so every read of a multiboot structure goes through `overlay`: after
the `memset` a byte of the bitmap area reads as the bitmap. The map is walked by
the `size` field of its entries, which need not make progress; the walks carry
fuel and `none` means that it ran out. -/
namespace Frostix.Pmm
open Machine32 ByteMemory

/-- What `pmm_init` finds: physical memory, the address of `multiboot_info_t` and
the address of the linker symbol `_kernel_end`. -/
structure Boot where
  mem : Mem
  mbInfo : Nat
  kernelEnd : Nat

def infoFlags (m : Mem) (info : Nat) : Nat := load32 m info
def infoModsCount (m : Mem) (info : Nat) : Nat := load32 m (info + 20)
def infoModsAddr (m : Mem) (info : Nat) : Nat := load32 m (info + 24)
def infoMmapLength (m : Mem) (info : Nat) : Nat := load32 m (info + 44)
def infoMmapAddr (m : Mem) (info : Nat) : Nat := load32 m (info + 48)

/-- `sizeof(multiboot_info_t)`. -/
def sizeofInfo : Nat := 118

def entrySize (m : Mem) (e : Nat) : Nat := load32 m e
def entryAddr (m : Mem) (e : Nat) : Nat := load64 m (e + 4)
def entryLen (m : Mem) (e : Nat) : Nat := load64 m (e + 12)
def entryType (m : Mem) (e : Nat) : Nat := load32 m (e + 20)

def modStart (m : Mem) (d : Nat) : Nat := load32 m d
def modEnd (m : Mem) (d : Nat) : Nat := load32 m (d + 4)

def entryEnd (m : Mem) (e : Nat) : Nat := (entryAddr m e + entryLen m e) % 2 ^ 64

/-- The entry after `e`. -/
def nextEntry (m : Mem) (e : Nat) : Nat := wrap (e + entrySize m e + 4)

/-- `mb_info->mmap_addr + mb_info->mmap_length`. -/
def mmapStop (m : Mem) (info : Nat) : Nat := wrap (infoMmapAddr m info + infoMmapLength m info)

def maxAddr (m : Mem) (info : Nat) : Nat → Nat → Nat → Option Nat
  | 0, _, _ => none
  | fuel + 1, e, best =>
      if e < mmapStop m info then
        maxAddr m info fuel (nextEntry m e)
          (if entryType m e = 1 then max best (entryEnd m e) else best)
      else some best

/-- Memory as `pmm_init` reads it: the bitmap lies over what was there before. -/
def overlay (p : BitmapAllocator) (m : Mem) : Mem := fun a =>
  if wsub a p.bitsAddr < p.size then p.bits (wsub a p.bitsAddr) else m a

/-- The loop body of `mark_region_allocated`. -/
def markPage (p : BitmapAllocator) (page : Nat) : BitmapAllocator :=
  if bitmapTestBit p page then p
  else
    let q := bitmapSetBit p page
    { q with
      usedPages := wrap (q.usedPages + 1)
      freePages := if 0 < q.freePages then q.freePages - 1 else q.freePages }

/-- `mark_region_allocated`: 64-bit arguments, page numbers cut to 32 bits. -/
def markRegionAllocated (p : BitmapAllocator) (start len : Nat) : BitmapAllocator :=
  if len = 0 then p
  else
    let startPage := wrap (start / 4096)
    let endPage := wrap ((start + len + 4095) % 2 ^ 64 / 4096)
    (List.range (min endPage p.totalPages - startPage)).foldl
      (fun q i => markPage q (startPage + i)) p

/-- Freeing one page of an available entry, unless its 32-bit address lies in the bitmap area. -/
def freeEntryPage (p : BitmapAllocator) (page : Nat) : BitmapAllocator :=
  let addr := wrap (page * 4096)
  if p.bitsAddr ≤ addr ∧ addr < wrap (p.bitsAddr + p.size) then p else releasePage p page

def freeEntry (p : BitmapAllocator) (m : Mem) (e : Nat) : BitmapAllocator :=
  if entryType m e = 1 ∧ 0x100000 ≤ entryAddr m e then
    let startPage := wrap ((entryAddr m e + 4095) % 2 ^ 64 / 4096)
    let endPage := wrap (entryEnd m e / 4096)
    (List.range (endPage - startPage)).foldl (fun q i => freeEntryPage q (startPage + i)) p
  else p

/-- The second walk: it reads the map through the bitmap it is clearing. -/
def freeEntries (boot : Boot) : Nat → BitmapAllocator → Nat → Option BitmapAllocator
  | 0, _, _ => none
  | fuel + 1, p, e =>
      if e < mmapStop (overlay p boot.mem) boot.mbInfo then
        let q := freeEntry p (overlay p boot.mem) e
        freeEntries boot fuel q (nextEntry (overlay q boot.mem) e)
      else some p

/-- The loop over the module descriptors from `mods`. Its bound is read again
before each iteration and is below `2 ^ 32`, so `2 ^ 32` iterations are enough. -/
def markModulesFrom (boot : Boot) (mods : Nat) : Nat → BitmapAllocator → Nat → BitmapAllocator
  | 0, p, _ => p
  | left + 1, p, i =>
      let m := overlay p boot.mem
      if i < infoModsCount m boot.mbInfo then
        let d := wrap (mods + 16 * i)
        markModulesFrom boot mods left
          (markRegionAllocated p (modStart m d) (wsub (modEnd m d) (modStart m d))) (i + 1)
      else p

def markModules (boot : Boot) (p : BitmapAllocator) : BitmapAllocator :=
  let m := overlay p boot.mem
  if infoFlags m boot.mbInfo / 8 % 2 = 1 then
    markModulesFrom boot (infoModsAddr m boot.mbInfo) (2 ^ 32) p 0
  else p

/-- The allocator right after the bitmap has been filled with ones. -/
def fullBitmap (boot : Boot) (top : Nat) : BitmapAllocator :=
  let total := wrap (top / 4096)
  { bitsAddr := alignUp boot.kernelEnd 4096
    bits := fun _ => 0xFF#8
    size := alignUp (wrap (total + 7) / 8) 4096
    totalPages := total
    freePages := 0
    usedPages := total }

def reservedBitmap (boot : Boot) (top : Nat) : BitmapAllocator :=
  let p := markRegionAllocated (fullBitmap boot top) 0 0x100000
  markRegionAllocated p p.bitsAddr p.size

def reserveBootData (boot : Boot) (p : BitmapAllocator) : BitmapAllocator :=
  let p := markRegionAllocated p boot.mbInfo sizeofInfo
  let m := overlay p boot.mem
  let p := markRegionAllocated p (infoMmapAddr m boot.mbInfo) (infoMmapLength m boot.mbInfo)
  let p := markModules boot p
  markRegionAllocated p 0x100000 (wsub boot.kernelEnd 0x100000)

/-- `g_physical_allocator` before `pmm_init`. -/
def zeroAllocator : BitmapAllocator :=
  { bitsAddr := 0, bits := fun _ => 0#8, size := 0, totalPages := 0, freePages := 0, usedPages := 0 }

def pmmInit (fuel : Nat) (boot : Boot) : Option (KernelStatus × BitmapAllocator) :=
  if infoFlags boot.mem boot.mbInfo / 64 % 2 = 0 then some (.error, zeroAllocator)
  else do
    let top ← maxAddr boot.mem boot.mbInfo fuel (infoMmapAddr boot.mem boot.mbInfo) 0
    let p := reservedBitmap boot top
    let p ← freeEntries boot fuel p (infoMmapAddr (overlay p boot.mem) boot.mbInfo)
    some (.ok, reserveBootData boot p)

end Frostix.Pmm
